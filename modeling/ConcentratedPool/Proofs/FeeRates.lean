import ConcentratedPool.Proofs.MirrorSymmetry

/-!
# Fee rates follow the skew

The fee rate of a swap depends on the balances through their skew alone. In raw units the skew `s`
gives the outer fee the share `s / (s + γ)`, rounded down, which is made one as soon as no more than
the tolerance is left to the middle fee (`Fee.shareOfSkew`). That happens from `s = 999 γ` on
(`Fee.shareOfSkew_eq_scale_iff`). The share is a fraction and grows with the skew, across the jump
as well, so that the rate stays between the two fees and is ordered as the skews are
(`Fee.rate_follows_skew`).
-/

set_option autoImplicit false
set_option relaxedAutoImplicit false

namespace ConcentratedPool.Fee

variable {x : Pair Decimal} {schedule : FeeSchedule} {fee : Decimal}

/-! ### The share of the outer fee -/

/-- The share of the outer fee for a skew, in raw units. -/
def shareOfSkew (gamma skew : ℕ) : ℕ :=
  let share := skew * Decimal.scale / (skew + gamma)
  if Decimal.scale - share ≤ Limits.feeTolerance.raw then Decimal.scale else share

section Share

variable {gamma s t : ℕ}

/-- A part of an amount is no more than the amount, also when it is rounded down. -/
theorem mul_div_le_of_le {a b : ℕ} (amount : ℕ) (hab : a ≤ b) : amount * a / b ≤ amount := by
  refine Nat.div_le_of_le_mul ?_
  rw [Nat.mul_comm b]
  exact Nat.mul_le_mul_left _ hab

theorem shareOfSkew_le_scale : shareOfSkew gamma s ≤ Decimal.scale := by
  unfold shareOfSkew
  dsimp only
  split_ifs with hsmall
  · exact le_rfl
  · omega

/-- An even pool has no share of the outer fee. -/
theorem shareOfSkew_zero : shareOfSkew gamma 0 = 0 := by
  unfold shareOfSkew
  rw [Nat.zero_mul, Nat.zero_div]
  rfl

/-- Before it is made one, the share grows with the skew. -/
theorem div_add_le_div_add (hst : s ≤ t) (hs : 0 < s + gamma) :
    s * Decimal.scale / (s + gamma) ≤ t * Decimal.scale / (t + gamma) := by
  have ht : 0 < t + gamma := by omega
  rw [Nat.le_div_iff_mul_le ht]
  have hfloor : s * Decimal.scale / (s + gamma) * (s + gamma) ≤ s * Decimal.scale :=
    Nat.div_mul_le_self _ _
  have hless : s * Decimal.scale / (s + gamma) ≤ Decimal.scale := by
    rw [Nat.mul_comm s]
    exact mul_div_le_of_le _ (Nat.le_add_right _ _)
  obtain ⟨more, rfl⟩ := Nat.exists_eq_add_of_le hst
  calc s * Decimal.scale / (s + gamma) * (s + more + gamma)
      = s * Decimal.scale / (s + gamma) * (s + gamma) +
          s * Decimal.scale / (s + gamma) * more := by ring
    _ ≤ s * Decimal.scale + Decimal.scale * more :=
        Nat.add_le_add hfloor (Nat.mul_le_mul_right _ hless)
    _ = (s + more) * Decimal.scale := by ring

/-- The share grows with the skew, also where it jumps to one. -/
theorem shareOfSkew_mono (hst : s ≤ t) (hs : 0 < s + gamma) :
    shareOfSkew gamma s ≤ shareOfSkew gamma t := by
  have hshare := div_add_le_div_add hst hs
  unfold shareOfSkew
  dsimp only
  split_ifs with hsmall hlarge
  · exact le_rfl
  · omega
  · omega
  · exact hshare

/-- The share is one exactly from a skew of `999 γ` on. -/
theorem shareOfSkew_eq_scale_iff (hs : 0 < s + gamma) :
    shareOfSkew gamma s = Decimal.scale ↔ 999 * gamma ≤ s := by
  have hkept : Decimal.scale - Limits.feeTolerance.raw = 999 * 10 ^ 15 := rfl
  have htolerance : 0 < Limits.feeTolerance.raw := by decide
  have hreach : 999 * 10 ^ 15 ≤ s * Decimal.scale / (s + gamma) ↔ 999 * gamma ≤ s := by
    rw [Nat.le_div_iff_mul_le hs]
    unfold Decimal.scale
    omega
  rw [← hreach]
  unfold shareOfSkew
  dsimp only
  generalize s * Decimal.scale / (s + gamma) = share
  split_ifs with hsmall
  · simp only [true_iff]
    omega
  · constructor
    · intro hone
      omega
    · intro hlarge
      omega

end Share

/-- The outer share of two balances is that of their skew. -/
theorem exists_of_outerShare {gamma share : Decimal} (h : outerShare x gamma = .ok share) :
    ∃ s, skew x = .ok s ∧ 0 < s.raw + gamma.raw ∧ share.raw = shareOfSkew gamma.raw s.raw := by
  simp only [outerShare, bind_eq_ok, Decimal.add_eq_ok, Decimal.div_eq_ok, Decimal.sub_eq_ok] at h
  obtain ⟨s, hs, total, htotal, ratio, ⟨hne, hratio⟩, rest, hrest, h⟩ := h
  rw [htotal] at hne hratio
  refine ⟨s, hs, Nat.pos_of_ne_zero hne, ?_⟩
  have hleft : Decimal.scale - ratio.raw = rest.raw := by
    change rest.raw + ratio.raw = Decimal.scale at hrest
    omega
  unfold shareOfSkew
  rw [← hratio]
  dsimp only
  rw [hleft]
  rcases branch_eq_ok.mp h with ⟨hsmall, hone⟩ | ⟨hlarge, hkept⟩
  · rw [if_pos (Decimal.le_def.mp hsmall), ← pure_eq_ok.mp hone]
    rfl
  · rw [if_neg (mt Decimal.le_def.mpr hlarge), pure_eq_ok.mp hkept]

/-! ### The rate of a swap -/

/-- The rate of a swap goes from the middle fee to the outer one as the share does from zero to
one. -/
theorem exists_of_rate (h : rate x schedule = .ok fee) :
    ∃ s, skew x = .ok s ∧ 0 < s.raw + schedule.gamma.raw ∧ ∃ span,
      schedule.out.raw = schedule.mid.raw + span ∧
      fee.raw = schedule.mid.raw +
        span * shareOfSkew schedule.gamma.raw s.raw / Decimal.scale := by
  simp only [rate, bind_eq_ok, Decimal.add_eq_ok, Decimal.mul_eq_ok, Decimal.sub_eq_ok] at h
  obtain ⟨share, hshare, span, hspan, part, hpart, hfee⟩ := h
  obtain ⟨s, hs, hpos, hraw⟩ := exists_of_outerShare hshare
  refine ⟨s, hs, hpos, span.raw, by omega, ?_⟩
  rw [hfee, hpart, hraw]

/-- The rate of a swap is between the middle and the outer fee. -/
theorem rate_mem (h : rate x schedule = .ok fee) : schedule.mid ≤ fee ∧ fee ≤ schedule.out := by
  obtain ⟨s, -, -, span, hspan, hfee⟩ := exists_of_rate h
  have hpart : span * shareOfSkew schedule.gamma.raw s.raw / Decimal.scale ≤ span :=
    mul_div_le_of_le span shareOfSkew_le_scale
  rw [Decimal.le_def, Decimal.le_def, hfee, hspan]
  exact ⟨Nat.le_add_right _ _, Nat.add_le_add_left hpart _⟩

/-- The fee rate of a swap follows the skew of the balances. It is the same for the balances in both
orders, lies between the middle and the outer fee, and is ordered as the skews are. An even pool has
the middle fee, and from a skew of `999 γ` on a pool has the outer one. -/
theorem rate_follows_skew (schedule : FeeSchedule) :
    (∀ x, rate x.exchange schedule = rate x schedule) ∧
    ∀ x y fee fee', rate x schedule = .ok fee → rate y schedule = .ok fee' →
      schedule.mid ≤ fee ∧ fee ≤ schedule.out ∧
      ∃ s t, skew x = .ok s ∧ skew y = .ok t ∧ (s ≤ t → fee ≤ fee') ∧
        (s = .zero → fee = schedule.mid) ∧
        (999 * schedule.gamma.raw ≤ s.raw → fee = schedule.out) := by
  refine ⟨fun x ↦ rate_exchange x schedule, fun x y fee fee' h h' ↦ ?_⟩
  obtain ⟨hmid, hout⟩ := rate_mem h
  obtain ⟨s, hs, hpos, span, hspan, hfee⟩ := exists_of_rate h
  obtain ⟨t, ht, -, span', hspan', hfee'⟩ := exists_of_rate h'
  obtain rfl : span = span' := by omega
  refine ⟨hmid, hout, s, t, hs, ht, fun hst ↦ ?_, ?_, fun hskewed ↦ ?_⟩
  · have hshare := shareOfSkew_mono (Decimal.le_def.mp hst) hpos
    rw [Decimal.le_def, hfee, hfee']
    exact Nat.add_le_add_left (Nat.div_le_div_right (Nat.mul_le_mul_left _ hshare)) _
  · rintro rfl
    rw [Decimal.ext_iff, hfee, Decimal.zero, shareOfSkew_zero, Nat.mul_zero, Nat.zero_div,
      Nat.add_zero]
  · rw [Decimal.ext_iff, hfee, (shareOfSkew_eq_scale_iff hpos).mpr hskewed,
      Nat.mul_div_cancel _ Decimal.scale_pos, ← hspan]

theorem thousand_mul_scale_le : 1000 * Decimal.scale ≤ Decimal.maxRaw := by decide

/-- A thousand units of the one asset beside `n` of the other. -/
def thousandBeside (n : ℕ) (hn : n ≤ 1000) : Pair Decimal :=
  ⟨⟨1000 * Decimal.scale, thousand_mul_scale_le⟩,
    ⟨n * Decimal.scale, (Nat.mul_le_mul_right _ hn).trans thousand_mul_scale_le⟩⟩

/-- The usual fees on balances with a skew of one part in four hundred, where the share is rounded,
and on balances that are skewed beyond the jump of the share. -/
theorem rate_follows_skew_usual :
    ∃ fee fee', rate (thousandBeside 905 (by decide)) Pool.usual.params.fees = .ok fee ∧
      rate (thousandBeside 300 (by decide)) Pool.usual.params.fees = .ok fee' ∧
      Pool.usual.params.fees.mid ≤ fee ∧ fee ≤ fee' ∧ fee' = Pool.usual.params.fees.out := by
  obtain ⟨fee, hfee, -⟩ := exists_of_any
    (rate (thousandBeside 905 (by decide)) Pool.usual.params.fees) (fun _ ↦ true)
    (by decide +kernel)
  obtain ⟨fee', hfee', -⟩ := exists_of_any
    (rate (thousandBeside 300 (by decide)) Pool.usual.params.fees) (fun _ ↦ true)
    (by decide +kernel)
  obtain ⟨-, hfollows⟩ := rate_follows_skew Pool.usual.params.fees
  obtain ⟨hmid, -, s, t, hs, ht, hle, -, -⟩ := hfollows _ _ _ _ hfee hfee'
  obtain ⟨-, -, t', -, ht', -, -, -, hout⟩ := hfollows _ _ _ _ hfee' hfee
  obtain rfl : t = t' := Except.ok.inj (ht.symm.trans ht')
  obtain ⟨s', hs', hless⟩ := exists_of_any (skew (thousandBeside 905 (by decide)))
    (fun s ↦ s.raw ≤ 10 ^ 16) (by decide +kernel)
  obtain ⟨t', ht', hmore⟩ := exists_of_any (skew (thousandBeside 300 (by decide)))
    (fun t ↦ 999 * Pool.usual.params.fees.gamma.raw ≤ t.raw) (by decide +kernel)
  obtain rfl : s = s' := Except.ok.inj (hs.symm.trans hs')
  obtain rfl : t = t' := Except.ok.inj (ht.symm.trans ht')
  have hlarge := of_decide_eq_true hmore
  have hsmall := of_decide_eq_true hless
  have hgamma : 10 ^ 16 ≤ 999 * Pool.usual.params.fees.gamma.raw := by decide
  exact ⟨fee, fee', hfee, hfee', hmid, hle (Decimal.le_def.mpr (by omega)), hout hlarge⟩

end ConcentratedPool.Fee
