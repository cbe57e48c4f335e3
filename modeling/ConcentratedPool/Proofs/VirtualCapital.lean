import ConcentratedPool.Proofs.DecimalRounding
import ConcentratedPool.Proofs.GeometricMean

/-!
# Virtual capital

The virtual capital of a pool with the invariant `d` at a price scale `s` is `d / (2 √s)`, computed
as the geometric mean of `d / 2` and `d / (2 s)`. In raw units it is one expression in natural
numbers (`capitalUnits`) in which every rounding is down and keeps the order. So it never overstates
the exact value (`four_mul_sq_le_of_virtualCapital`), grows with the invariant and falls with the
price scale (`virtualCapital_mono`).
-/

set_option autoImplicit false
set_option relaxedAutoImplicit false

namespace ConcentratedPool

/-- The virtual capital in raw units, from those of the invariant and of the price scale. -/
def capitalUnits (d scale : ℕ) : ℕ :=
  Nat.sqrt (d / 2 * (d * Decimal.scale / (2 * scale)) / Decimal.scale * Decimal.scale)

/-- A larger invariant and a smaller price scale have no less virtual capital. -/
theorem capitalUnits_mono {d d' scale scale' : ℕ} (hd : d ≤ d') (hscale : scale' ≤ scale)
    (hpos : 0 < scale') : capitalUnits d scale ≤ capitalUnits d' scale' := by
  have hbase : d / 2 ≤ d' / 2 := Nat.div_le_div_right hd
  have hquote : d * Decimal.scale / (2 * scale) ≤ d' * Decimal.scale / (2 * scale') :=
    Nat.div_le_div (Nat.mul_le_mul_right _ hd) (Nat.mul_le_mul_left 2 hscale) (by omega)
  have harea := Nat.div_le_div_right (c := Decimal.scale) (Nat.mul_le_mul hbase hquote)
  exact Nat.sqrt_le_sqrt (Nat.mul_le_mul_right _ harea)

/-- Four times the square of the virtual capital, times the price scale, is at most the square of
the invariant. -/
theorem four_mul_capitalUnits_sq_le (d scale : ℕ) :
    4 * (capitalUnits d scale * capitalUnits d scale) * scale ≤ d * d * Decimal.scale := by
  set base := d / 2
  set quote := d * Decimal.scale / (2 * scale) with hquote
  have hroot : capitalUnits d scale * capitalUnits d scale ≤ base * quote :=
    (Nat.sqrt_le _).trans (Nat.div_mul_le_self _ _)
  have hbase : 2 * base ≤ d := Nat.mul_div_le d 2
  have hquoteLe : quote * (2 * scale) ≤ d * Decimal.scale := hquote ▸ Nat.div_mul_le_self _ _
  calc 4 * (capitalUnits d scale * capitalUnits d scale) * scale
      ≤ 4 * (base * quote) * scale := by gcongr
    _ = 2 * base * (quote * (2 * scale)) := by ring
    _ ≤ d * (d * Decimal.scale) := Nat.mul_le_mul hbase hquoteLe
    _ = d * d * Decimal.scale := by ring

variable {d d' scale scale' c c' : Decimal}

/-- There is a virtual capital only at a positive price scale. -/
theorem raw_of_virtualCapital (h : virtualCapital d scale = .ok c) :
    0 < scale.raw ∧ c.raw = capitalUnits d.raw scale.raw := by
  simp only [virtualCapital, bind_eq_ok, Decimal.div_eq_ok, Decimal.mul_eq_ok] at h
  obtain ⟨base, ⟨-, hbase⟩, double, hdouble, quote, ⟨hne, hquote⟩, hmean⟩ := h
  have htwo : Decimal.two.raw = 2 * Decimal.scale := rfl
  have hhalf : base.raw = d.raw / 2 := by
    rw [hbase, htwo, Nat.mul_div_mul_right _ _ Decimal.scale_pos]
  have htwice : double.raw = 2 * scale.raw := by
    rw [hdouble, htwo, Nat.mul_right_comm, Nat.mul_div_cancel _ Decimal.scale_pos]
  rw [htwice] at hne hquote
  refine ⟨by omega, ?_⟩
  rw [(geometricMean_eq_ok.mp hmean).2, hhalf, hquote, capitalUnits]

/-- Virtual capital is never overstated. -/
theorem four_mul_sq_le_of_virtualCapital (h : virtualCapital d scale = .ok c) :
    4 * c.toRat ^ 2 * scale.toRat ≤ d.toRat ^ 2 := by
  have hunit := Decimal.cast_scale_pos
  have hraw : (4 * (c.raw * c.raw) * scale.raw : ℚ) ≤ d.raw * d.raw * Decimal.scale := by
    rw [(raw_of_virtualCapital h).2]
    exact_mod_cast four_mul_capitalUnits_sq_le d.raw scale.raw
  calc 4 * c.toRat ^ 2 * scale.toRat
      = 4 * (c.raw * c.raw) * scale.raw / (Decimal.scale : ℚ) ^ 3 := by
        unfold Decimal.toRat
        field_simp
    _ ≤ d.raw * d.raw * Decimal.scale / (Decimal.scale : ℚ) ^ 3 :=
        div_le_div_of_nonneg_right hraw (by positivity)
    _ = d.toRat ^ 2 := by
        unfold Decimal.toRat
        field_simp

/-- Virtual capital grows with the invariant and falls with the price scale. -/
theorem virtualCapital_mono (hd : d ≤ d') (hscale : scale' ≤ scale)
    (h : virtualCapital d scale = .ok c) (h' : virtualCapital d' scale' = .ok c') : c ≤ c' := by
  rw [Decimal.le_def, (raw_of_virtualCapital h).2, (raw_of_virtualCapital h').2]
  exact capitalUnits_mono hd hscale (raw_of_virtualCapital h').1

/-- Virtual capital is never overstated: in exact arithmetic four times its square, times the price
scale, is at most the square of the invariant. It does not fall when the invariant grows, and does
not grow when the price scale does. -/
theorem virtualCapital_rounds_down :
    (∀ d scale c : Decimal, virtualCapital d scale = .ok c →
        4 * c.toRat ^ 2 * scale.toRat ≤ d.toRat ^ 2) ∧
      (∀ d d' scale c c' : Decimal, d ≤ d' → virtualCapital d scale = .ok c →
        virtualCapital d' scale = .ok c' → c ≤ c') ∧
      ∀ d scale scale' c c' : Decimal, scale ≤ scale' → virtualCapital d scale = .ok c →
        virtualCapital d scale' = .ok c' → c' ≤ c :=
  ⟨fun _ _ _ ↦ four_mul_sq_le_of_virtualCapital,
    fun _ _ scale _ _ hd ↦ virtualCapital_mono hd (Nat.le_refl scale.raw),
    fun d _ _ _ _ hscale h h' ↦ virtualCapital_mono (Nat.le_refl d.raw) hscale h' h⟩

/-- An invariant of 20.000724967149926018 at the price scales 1 and 2, and one of 20 at 1. The
first two virtual capitals are rounded down. -/
theorem virtualCapital_rounds_down_usual :
    ∃ d twenty capital doubled less : Decimal,
      d.raw = 20_000_724_967_149_926_018 ∧ twenty.raw = 20_000_000_000_000_000_000 ∧
      virtualCapital d .one = .ok capital ∧ virtualCapital d .two = .ok doubled ∧
      virtualCapital twenty .one = .ok less ∧
      4 * capital.toRat ^ 2 * Decimal.one.toRat ≤ d.toRat ^ 2 ∧
      4 * doubled.toRat ^ 2 * Decimal.two.toRat ≤ d.toRat ^ 2 ∧
      less ≤ capital ∧ doubled ≤ capital := by
  obtain ⟨hbound, hgrows, hfalls⟩ := virtualCapital_rounds_down
  let d : Decimal := ⟨20_000_724_967_149_926_018, by decide⟩
  let twenty : Decimal := ⟨20_000_000_000_000_000_000, by decide⟩
  obtain ⟨⟨capital, doubled, less⟩, hall, -⟩ := exists_of_any
    (do return (← virtualCapital d .one, ← virtualCapital d .two, ← virtualCapital twenty .one))
    (fun _ ↦ true) (by decide +kernel)
  simp only [bind_eq_ok, pure_eq_ok, Prod.mk.injEq] at hall
  obtain ⟨_, hone, _, htwo, _, hless, rfl, rfl, rfl⟩ := hall
  exact ⟨d, twenty, _, _, _, rfl, rfl, hone, htwo, hless, hbound d .one _ hone,
    hbound d .two _ htwo, hgrows twenty d .one _ _ (by decide) hless hone,
    hfalls d .one .two _ _ (by decide) hone htwo⟩

end ConcentratedPool
