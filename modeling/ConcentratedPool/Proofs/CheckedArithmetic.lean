import ConcentratedPool.Decimal.Arithmetic
import Mathlib.Data.Nat.Basic
import Mathlib.Tactic.Linarith

/-!
# What a checked operation gives

A checked operation either refuses or gives one value. The statements here say, for each of them,
that it gives `c` exactly when the raw value of `c` is the rounded exact one and the operands are in
its domain: `Decimal.add_eq_ok`, `Decimal.sub_eq_ok`, `Decimal.mul_eq_ok`, `Decimal.div_eq_ok` for
the arithmetic, `Decimal.ofTokens_eq_ok` and `Decimal.toTokens_eq_ok` for token amounts. A chain of
checked operations is taken apart by `bind_eq_ok`, `refuse_eq_ok` and `pure_eq_ok`. Nothing after
this module opens a checked operation.
-/

set_option autoImplicit false
set_option relaxedAutoImplicit false

namespace ConcentratedPool

/-! ### Chains of checked operations -/

section Chain

variable {ε α β : Type}

/-- A chain gives a value exactly when its first part does and the rest does from there. -/
@[simp] theorem bind_eq_ok {x : Except ε α} {f : α → Except ε β} {b : β} :
    x >>= f = .ok b ↔ ∃ a, x = .ok a ∧ f a = .ok b := by
  cases x with
  | error e => simp [bind, Except.bind]
  | ok a => simp [bind, Except.bind]

/-- A chain whose first part gives a value goes on from there. -/
theorem ok_bind (a : α) (f : α → Except ε β) : (Except.ok a >>= f) = f a := rfl

/-- A chain is refused exactly when its first part is, or the rest is from what that gives. -/
theorem bind_eq_error {x : Except ε α} {f : α → Except ε β} {e : ε} :
    x >>= f = .error e ↔ x = .error e ∨ ∃ a, x = .ok a ∧ f a = .error e := by
  cases x with
  | error e' => simp [bind, Except.bind]
  | ok a => simp [bind, Except.bind]

/-- A chain that ends gives the value that it ends with. -/
@[simp] theorem pure_eq_ok {a b : α} : (pure a : Except ε α) = .ok b ↔ a = b := by
  simp [pure, Except.pure]

/-- A mapped chain gives a value exactly when the chain gives one that is mapped to it. -/
theorem map_eq_ok {f : α → β} {x : Except ε α} {b : β} :
    f <$> x = .ok b ↔ ∃ a, x = .ok a ∧ f a = b := by
  rw [map_eq_pure_bind, bind_eq_ok]
  simp only [pure_eq_ok]

/-- A chain that refuses gives no value. -/
@[simp] theorem throw_ne_ok {e : ε} {b : α} : ¬(throw e : Except ε α) = .ok b := by
  rintro ⟨⟩

/-- A check lets a chain go on exactly when its condition does not hold. -/
@[simp] theorem refuse_eq_ok {c : Prop} [Decidable c] {e : ε} {rest : PUnit → Except ε β}
    {y : Except ε β} {b : β} :
    (if c then (throw e >>= rest) else y) = .ok b ↔ ¬ c ∧ y = .ok b := by
  by_cases hc : c <;> simp [hc]

/-- A branch of a chain gives a value exactly when the side that is taken does. -/
theorem branch_eq_ok {c : Prop} [Decidable c] {x y : Except ε β} {b : β} :
    (if c then x else y) = .ok b ↔ c ∧ x = .ok b ∨ ¬ c ∧ y = .ok b := by
  by_cases hc : c <;> simp [hc]

/-- A chain gives a value that passes a test, as soon as the test is passed by whatever it gives. -/
theorem exists_of_any (x : Except ε α) (test : α → Bool) (h : x.toOption.any test = true) :
    ∃ a, x = .ok a ∧ test a = true := by
  cases x with
  | error e => simp [Except.toOption] at h
  | ok a => exact ⟨a, rfl, h⟩

end Chain

namespace Decimal

/-- The raw value of one is positive. -/
theorem scale_pos : 0 < scale := by decide

@[simp] theorem isZero_eq_true {a : Decimal} : a.isZero = true ↔ a.raw = 0 := by
  simp [isZero]

@[simp] theorem isZero_eq_false {a : Decimal} : a.isZero = false ↔ a.raw ≠ 0 := by
  simp [isZero]

/-- A raw value makes a decimal exactly when it is the raw value of one. -/
theorem ofNatRaw_eq_ok {n : ℕ} {c : Decimal} : ofNatRaw n = .ok c ↔ c.raw = n := by
  unfold ofNatRaw
  split_ifs with hle
  · rw [Except.ok.injEq, Decimal.ext_iff, eq_comm]
  · have hc := c.raw_le
    simp only [false_iff]
    omega

/-- As `ofNatRaw_eq_ok`, where the raw value may be negative. -/
theorem ofRaw_eq_ok {n : ℤ} {c : Decimal} : ofRaw n = .ok c ↔ (c.raw : ℤ) = n := by
  unfold ofRaw
  split_ifs with hneg
  · simp only [false_iff]
    omega
  · rw [ofNatRaw_eq_ok]
    omega

/-- The larger of two decimals is not below the first. -/
theorem raw_le_max (a b : Decimal) : a.raw ≤ (a.max b).raw := by
  unfold max
  split_ifs with hlt
  · exact le_of_lt hlt
  · exact le_rfl

/-! ### Arithmetic -/

@[simp] theorem add_eq_ok {a b c : Decimal} :
    (a + b : Except Fault Decimal) = .ok c ↔ c.raw = a.raw + b.raw :=
  ofNatRaw_eq_ok

@[simp] theorem sub_eq_ok {a b c : Decimal} :
    (a - b : Except Fault Decimal) = .ok c ↔ c.raw + b.raw = a.raw := by
  change ofRaw (a.raw - b.raw) = .ok c ↔ _
  rw [ofRaw_eq_ok]
  omega

@[simp] theorem mul_eq_ok {a b c : Decimal} :
    (a * b : Except Fault Decimal) = .ok c ↔ c.raw = a.raw * b.raw / scale :=
  ofNatRaw_eq_ok

@[simp] theorem div_eq_ok {a b c : Decimal} :
    (a / b : Except Fault Decimal) = .ok c ↔ b.raw ≠ 0 ∧ c.raw = a.raw * scale / b.raw := by
  change div a b = .ok c ↔ _
  unfold div
  split_ifs with hzero
  · simp [hzero]
  · simp only [ofNatRaw_eq_ok, ne_eq, hzero, not_false_eq_true, true_and]

/-! ### Bounds of products and quotients -/

/-- A product is rounded down. -/
theorem mul_raw_le {a b c : Decimal} (h : (a * b : Except Fault Decimal) = .ok c) :
    c.raw * scale ≤ a.raw * b.raw := by
  rw [mul_eq_ok] at h
  exact h ▸ Nat.div_mul_le_self _ _

/-- A quotient is rounded down. -/
theorem div_raw_le {a b c : Decimal} (h : (a / b : Except Fault Decimal) = .ok c) :
    c.raw * b.raw ≤ a.raw * scale := by
  rw [div_eq_ok] at h
  exact h.2 ▸ Nat.div_mul_le_self _ _

/-! ### Token amounts -/

/-- The number of units in one token unit, a power of ten. -/
def tokenUnit (precision : ℤ) : ℕ := 10 ^ (places - precision).toNat

theorem tokenUnit_pos (precision : ℤ) : 0 < tokenUnit precision := Nat.pow_pos (by decide)

theorem unitsOf_eq_ok {precision : ℤ} {u : ℕ} :
    unitsOf precision = .ok u ↔ precision ≤ places ∧ tokenUnit precision = u := by
  unfold unitsOf
  split_ifs with hp
  · simp only [false_iff]
    omega
  · simp only [Except.ok.injEq, not_lt.mp hp, true_and]
    rfl

@[simp] theorem ofTokens_eq_ok {amount precision : ℤ} {c : Decimal} :
    ofTokens amount precision = .ok c ↔
      precision ≤ places ∧ (c.raw : ℤ) = amount * tokenUnit precision := by
  simp only [ofTokens, bind_eq_ok, unitsOf_eq_ok, ofRaw_eq_ok]
  constructor
  · rintro ⟨_, ⟨hle, rfl⟩, hraw⟩
    exact ⟨hle, hraw⟩
  · rintro ⟨hle, hraw⟩
    exact ⟨_, ⟨hle, rfl⟩, hraw⟩

@[simp] theorem toTokens_eq_ok {a : Decimal} {precision : ℤ} {n : ℕ} :
    a.toTokens precision = .ok n ↔ precision ≤ places ∧ a.raw / tokenUnit precision = n := by
  simp only [toTokens, bind_eq_ok, pure_eq_ok, unitsOf_eq_ok]
  constructor
  · rintro ⟨_, ⟨hle, rfl⟩, hn⟩
    exact ⟨hle, hn⟩
  · rintro ⟨hle, hn⟩
    exact ⟨_, ⟨hle, rfl⟩, hn⟩

end Decimal

end ConcentratedPool
