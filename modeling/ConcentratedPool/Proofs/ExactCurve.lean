import ConcentratedPool.AmpGamma
import Mathlib.Algebra.Order.Field.Rat
import Mathlib.Tactic.FieldSimp
import Mathlib.Tactic.Linarith
import Mathlib.Tactic.Positivity
import Mathlib.Tactic.Ring

/-!
# The curve in exact arithmetic

The curve that the solvers approximate, over the rational numbers: `AmpGamma.exactResidual` is `F`
without any rounding. Balances support an invariant (`AmpGamma.Supports`) if `F` is not negative
there. The invariants that are supported are those up to the root of the curve, and larger balances
support more: `AmpGamma.Supports.mono` is both at once.

The argument runs in the two quantities that `F` depends on once the square of the invariant is
divided out (`AmpGamma.supports_iff`), `K₀ = 4 x₀ x₁ / D²` and `(x₀ + x₁) / D`. Where `K₀` has
reached one, the balances support the invariant because their arithmetic mean is not below their
geometric mean; below one, the weight `K` grows with `K₀` (`AmpGamma.exactWeight_le`).
-/

set_option autoImplicit false
set_option relaxedAutoImplicit false

namespace ConcentratedPool

theorem Decimal.cast_scale_pos : (0 : ℚ) < Decimal.scale := Nat.cast_pos.mpr (by decide)

/-- The exact value of a decimal. -/
def Decimal.toRat (a : Decimal) : ℚ := a.raw / Decimal.scale

theorem Decimal.toRat_nonneg (a : Decimal) : 0 ≤ a.toRat := by
  unfold Decimal.toRat
  positivity

/-- Decimals are ordered as their exact values are. -/
theorem Decimal.toRat_le_toRat {a b : Decimal} : a.toRat ≤ b.toRat ↔ a.raw ≤ b.raw := by
  unfold Decimal.toRat
  rw [div_le_div_iff_of_pos_right Decimal.cast_scale_pos, Nat.cast_le]

/-- One unit of the eighteenth place. -/
def Decimal.ulp : ℚ := 1 / Decimal.scale

theorem Decimal.ulp_pos : 0 < Decimal.ulp := one_div_pos.mpr Decimal.cast_scale_pos

theorem Decimal.ulp_nonneg : 0 ≤ Decimal.ulp := Decimal.ulp_pos.le

/-- What a mapped pair holds for a side. -/
theorem Pair.get_map {α β : Type} (f : α → β) (p : Pair α) (side : Side) :
    (p.map f).get side = f (p.get side) := by
  cases side <;> rfl

namespace AmpGamma

variable (a : AmpGamma)

/-- The weight `K` of the constant sum at `K₀ = k`. -/
def exactWeight (k : ℚ) : ℚ :=
  a.amp.toRat * k * a.gamma.toRat ^ 2 / (a.gamma.toRat + 1 - k) ^ 2

/-- `K₀ = 4 x₀ x₁ / D²`, which is one for even balances. -/
def exactProduct (d : ℚ) (x : Pair ℚ) : ℚ := 4 * (x.base * x.quote) / d ^ 2

/-- The value of `F` for the invariant `d` and the balances `x`. -/
def exactResidual (d : ℚ) (x : Pair ℚ) : ℚ :=
  a.exactWeight (exactProduct d x) * d * (x.base + x.quote) + x.base * x.quote -
    a.exactWeight (exactProduct d x) * d ^ 2 - d ^ 2 / 4

/-- The balances `x` support the invariant `d`: the root of the curve is not below `d`. -/
def Supports (d : ℚ) (x : Pair ℚ) : Prop := 0 ≤ a.exactResidual d x

instance (d : ℚ) (x : Pair ℚ) : Decidable (a.Supports d x) :=
  inferInstanceAs (Decidable (0 ≤ a.exactResidual d x))

/-! ### The weight -/

/-- The weight is not negative. -/
theorem exactWeight_nonneg {k : ℚ} (hk : 0 ≤ k) : 0 ≤ a.exactWeight k := by
  have hamp := a.amp.toRat_nonneg
  unfold exactWeight
  positivity

/-- Up to `K₀ = 1` the weight grows with `K₀`. -/
theorem exactWeight_le {k m : ℚ} (hk : 0 ≤ k) (hkm : k ≤ m) (hm : m < 1) :
    a.exactWeight k ≤ a.exactWeight m := by
  have hamp := a.amp.toRat_nonneg
  have hgamma := a.gamma.toRat_nonneg
  have hmNonneg : 0 ≤ m := hk.trans hkm
  have hgap : 0 < a.gamma.toRat + 1 - m := by linarith
  unfold exactWeight
  refine div_le_div₀ ?_ ?_ (by positivity) ?_
  · positivity
  · exact mul_le_mul_of_nonneg_right (mul_le_mul_of_nonneg_left hkm hamp) (by positivity)
  · exact pow_le_pow_left₀ hgap.le (by linarith) 2

/-! ### What balances support -/

variable {a} {d e : ℚ} {x y : Pair ℚ}

theorem exactProduct_nonneg (hx : ∀ side, 0 ≤ x.get side) (d : ℚ) : 0 ≤ exactProduct d x := by
  have hbase : 0 ≤ x.base := hx .base
  have hquote : 0 ≤ x.quote := hx .quote
  unfold exactProduct
  positivity

/-- Whether balances support an invariant depends on `K₀` and on the ratio of their sum to the
invariant. -/
theorem supports_iff (hd : 0 < d) :
    a.Supports d x ↔ 1 - exactProduct d x ≤
      4 * (a.exactWeight (exactProduct d x) * ((x.base + x.quote) / d - 1)) := by
  have hfactor : a.exactResidual d x = d ^ 2 / 4 *
      (4 * (a.exactWeight (exactProduct d x) * ((x.base + x.quote) / d - 1)) -
        (1 - exactProduct d x)) := by
    have hproduct : x.base * x.quote = exactProduct d x * d ^ 2 / 4 := by
      unfold exactProduct
      field_simp
    unfold exactResidual
    generalize exactProduct d x = k at hproduct ⊢
    rw [hproduct]
    field_simp
    ring
  have hsquare : 0 < d ^ 2 / 4 := by positivity
  rw [Supports, hfactor, mul_nonneg_iff_of_pos_left hsquare, sub_nonneg]

/-- The arithmetic mean of two balances is not below their geometric mean. -/
theorem exactProduct_le_sq (d : ℚ) (x : Pair ℚ) :
    exactProduct d x ≤ ((x.base + x.quote) / d) ^ 2 := by
  rw [exactProduct, div_pow]
  refine div_le_div_of_nonneg_right ?_ (sq_nonneg d)
  linarith [sq_nonneg (x.base - x.quote)]

/-- Balances whose `K₀` has reached one support the invariant, because their sum is then not below
it. -/
theorem supports_of_one_le (hd : 0 < d) (hx : ∀ side, 0 ≤ x.get side)
    (hone : 1 ≤ exactProduct d x) : a.Supports d x := by
  have hbase : 0 ≤ x.base := hx .base
  have hquote : 0 ≤ x.quote := hx .quote
  have hmean : 1 ≤ (x.base + x.quote) / d := by
    have hsq := hone.trans (exactProduct_le_sq d x)
    exact (one_le_sq_iff₀ (by positivity)).mp hsq
  have hweight := a.exactWeight_nonneg (zero_le_one.trans hone)
  have hright : 0 ≤ a.exactWeight (exactProduct d x) * ((x.base + x.quote) / d - 1) :=
    mul_nonneg hweight (sub_nonneg.mpr hmean)
  rw [supports_iff hd]
  linarith

/-- Larger balances support whatever smaller ones do, and every smaller invariant. Assumes: positive
invariants and balances that are not negative. -/
theorem Supports.mono (h : a.Supports d x) (he : 0 < e) (hed : e ≤ d)
    (hx : ∀ side, 0 ≤ x.get side) (hxy : ∀ side, x.get side ≤ y.get side) : a.Supports e y := by
  have hd : 0 < d := lt_of_lt_of_le he hed
  have hxBase : 0 ≤ x.base := hx .base
  have hxQuote : 0 ≤ x.quote := hx .quote
  have hbase : x.base ≤ y.base := hxy .base
  have hquote : x.quote ≤ y.quote := hxy .quote
  have hproduct : exactProduct d x ≤ exactProduct e y := by
    unfold exactProduct
    refine div_le_div₀ ?_ ?_ (by positivity) (pow_le_pow_left₀ he.le hed 2)
    · have hyBase : 0 ≤ y.base := hxBase.trans hbase
      have hyQuote : 0 ≤ y.quote := hxQuote.trans hquote
      positivity
    · exact mul_le_mul_of_nonneg_left (mul_le_mul hbase hquote hxQuote (hxBase.trans hbase))
        (by norm_num)
  have hsum : (x.base + x.quote) / d ≤ (y.base + y.quote) / e := by
    refine div_le_div₀ ?_ (add_le_add hbase hquote) he hed
    linarith
  have hnonneg : 0 ≤ exactProduct d x := exactProduct_nonneg hx d
  -- The weight is monotone below `K₀ = 1` only; from there on the balances are even enough for
  -- their sum alone to support the invariant.
  by_cases hone : 1 ≤ exactProduct e y
  · exact supports_of_one_le he (fun side ↦ (hx side).trans (hxy side)) hone
  · rw [not_le] at hone
    rw [supports_iff he]
    rw [supports_iff hd] at h
    have hweight := a.exactWeight_le hnonneg hproduct hone
    have hleft : 0 ≤ a.exactWeight (exactProduct d x) := a.exactWeight_nonneg hnonneg
    have hexcess : 0 ≤ (x.base + x.quote) / d - 1 := by
      by_contra hneg
      rw [not_le] at hneg
      have := mul_nonpos_of_nonneg_of_nonpos hleft hneg.le
      linarith
    have hgrow : a.exactWeight (exactProduct d x) * ((x.base + x.quote) / d - 1) ≤
        a.exactWeight (exactProduct e y) * ((y.base + y.quote) / e - 1) :=
      mul_le_mul hweight (by linarith) hexcess (hleft.trans hweight)
    linarith

/-- Balances and invariant can be measured in other units. -/
theorem supports_mul_iff {c : ℚ} (hc : 0 < c) :
    a.Supports (c * d) (x.map (c * ·)) ↔ a.Supports d x := by
  have hproduct : exactProduct (c * d) (x.map (c * ·)) = exactProduct d x := by
    have hnumerator : 4 * (c * x.base * (c * x.quote)) = c ^ 2 * (4 * (x.base * x.quote)) := by ring
    simp only [exactProduct, Pair.map]
    rw [hnumerator, mul_pow, mul_div_mul_left _ _ (pow_ne_zero 2 hc.ne')]
  have hresidual : a.exactResidual (c * d) (x.map (c * ·)) = c ^ 2 * a.exactResidual d x := by
    unfold exactResidual
    rw [hproduct]
    simp only [Pair.map]
    ring
  rw [Supports, Supports, hresidual, mul_nonneg_iff_of_pos_left (pow_pos hc 2)]

/-- What grown balances support is less than what has grown from an invariant that the balances did
not support. -/
theorem Supports.lt_mul {c : ℚ} (h : a.Supports e (x.map (c * ·))) (hc : 0 < c) (hd : 0 < d)
    (hx : ∀ side, 0 ≤ x.get side) (hnot : ¬ a.Supports d x) : e < c * d := by
  by_contra hle
  rw [not_lt] at hle
  have hsame : c * (e / c) = e := mul_div_cancel₀ e hc.ne'
  rw [← hsame, supports_mul_iff hc] at h
  exact hnot (h.mono hd ((le_div_iff₀' hc).mpr hle) hx fun _ ↦ le_rfl)

end AmpGamma

end ConcentratedPool
