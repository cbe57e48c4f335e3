import ConcentratedPool.Decimal.Mixed
import ConcentratedPool.Proofs.Refusals
import ConcentratedPool.Proofs.SignedRounding
import Mathlib.Data.Rat.Floor

/-!
# Exact arithmetic between decimals of both kinds

An operator between two operands is compared with the exact operation on their rational values
(`Operand.toRat`, `Operator.exact`). The result has the kind `Operator.kind`, and its raw value is
the exact one in units of the eighteenth place, rounded as this kind rounds: `DecimalKind.round` is
down for unsigned decimals and toward zero for signed ones (`Operator.apply_eq`). Refused is a
divisor that is zero or does not fit the signed kind, and a rounded result that is out of range
(`Operator.Accepts`, `Operator.exists_apply_iff`).

The statements about both kinds at once follow from there: products do not depend on the order,
signed results change their sign with a signed operand, and the two kinds agree wherever nothing is
negative (`Operand.arithmetic_exact`).
-/

set_option autoImplicit false
set_option relaxedAutoImplicit false

namespace ConcentratedPool

/-! ### Rounding -/

/-- The whole number next to `x` on the side of zero. -/
def towardZero (x : ℚ) : ℤ := if 0 ≤ x then ⌊x⌋ else ⌈x⌉

theorem towardZero_neg (x : ℚ) : towardZero (-x) = -towardZero x := by
  rcases lt_trichotomy x 0 with hneg | rfl | hpos
  · rw [towardZero, towardZero, if_pos (neg_nonneg.mpr hneg.le), if_neg hneg.not_ge, Int.floor_neg]
  · simp [towardZero]
  · rw [towardZero, towardZero, if_neg (neg_neg_of_pos hpos).not_ge, if_pos hpos.le, Int.ceil_neg]

/-- A quotient of whole numbers is rounded toward zero by the division that truncates. -/
theorem towardZero_div (n m : ℤ) : towardZero (n / m) = n.tdiv m := by
  -- The four signs come down to natural numbers, since both sides are odd in `n` and in `m`.
  have hnat (k l : ℕ) : towardZero ((k : ℤ) / (l : ℤ)) = (k : ℤ).tdiv l := by
    have hnonneg : (0 : ℚ) ≤ (k : ℤ) / (l : ℤ) := by positivity
    rw [towardZero, if_pos hnonneg, Int.tdiv_eq_ediv_of_nonneg (Int.natCast_nonneg k)]
    exact Rat.floor_intCast_div_natCast k l
  obtain ⟨k, rfl | rfl⟩ := n.eq_nat_or_neg <;> obtain ⟨l, rfl | rfl⟩ := m.eq_nat_or_neg
  · exact hnat k l
  · rw [Int.cast_neg, div_neg, towardZero_neg, hnat, Int.tdiv_neg]
  · rw [Int.cast_neg, neg_div, towardZero_neg, hnat, Int.neg_tdiv]
  · rw [Int.cast_neg, Int.cast_neg, neg_div_neg_eq, hnat, Int.neg_tdiv, Int.tdiv_neg, neg_neg]

/-- A quotient of whole numbers is rounded down by the division that floors. -/
theorem floor_div_eq_fdiv (n m : ℤ) : ⌊(n / m : ℚ)⌋ = n.fdiv m := by
  obtain ⟨l, rfl | rfl⟩ := m.eq_nat_or_neg
  · rw [Int.fdiv_eq_ediv_of_nonneg n (Int.natCast_nonneg l)]
    exact Rat.floor_intCast_div_natCast n l
  · rw [← Int.neg_fdiv_neg, neg_neg, Int.fdiv_eq_ediv_of_nonneg (-n) (Int.natCast_nonneg l),
      Int.cast_neg, div_neg, ← neg_div, ← Int.cast_neg]
    exact Rat.floor_intCast_div_natCast (-n) l

namespace DecimalKind

variable {kind : DecimalKind}

/-- Rounds to a whole number of units: down, or toward zero in the kind with a sign. -/
def round : DecimalKind → ℚ → ℤ
  | unsigned, x => ⌊x⌋
  | signed, x => towardZero x

/-- The raw values of a kind. -/
def InRange : DecimalKind → ℤ → Prop
  | unsigned, raw => 0 ≤ raw ∧ raw ≤ Decimal.maxRaw
  | signed, raw => -Decimal.maxRaw ≤ raw ∧ raw ≤ Decimal.maxRaw

theorem round_intCast (kind : DecimalKind) (n : ℤ) : kind.round n = n := by
  cases kind with
  | unsigned => exact Int.floor_intCast n
  | signed =>
    change towardZero n = n
    unfold towardZero
    split_ifs
    · exact Int.floor_intCast n
    · exact Int.ceil_intCast n

/-- Both kinds round down what is not negative. -/
theorem round_of_nonneg {x : ℚ} (hx : 0 ≤ x) : kind.round x = ⌊x⌋ := by
  cases kind with
  | unsigned => rfl
  | signed => exact if_pos hx

/-- Both kinds reach equally far up. -/
theorem inRange_iff_of_nonneg {n : ℤ} (hn : 0 ≤ n) : kind.InRange n ↔ n ≤ Decimal.maxRaw := by
  cases kind with
  | unsigned => exact and_iff_right hn
  | signed => exact and_iff_right ((neg_nonpos.mpr (Int.natCast_nonneg _)).trans hn)

end DecimalKind

/-! ### Numbers from raw values -/

namespace Number

variable {kind : DecimalKind} {raw : ℤ} {c : Number}

theorem ofRaw_eq_ok : ofRaw kind raw = .ok c ↔ c.kind = kind ∧ c.raw = raw := by
  cases kind with
  | unsigned =>
    change unsigned <$> Decimal.ofRaw raw = .ok c ↔ _
    rw [map_eq_ok]
    cases c with
    | unsigned v => simp [Decimal.ofRaw_eq_ok, Number.kind, Number.raw]
    | signed v => simp [Number.kind]
  | signed =>
    change signed <$> SignedDecimal.ofRaw raw = .ok c ↔ _
    rw [map_eq_ok]
    cases c with
    | unsigned v => simp [Number.kind]
    | signed v => simp [SignedDecimal.ofRaw_eq_ok, Number.kind, Number.raw]

/-- A raw value makes a number of a kind exactly when it is in the range of the kind. -/
theorem exists_ofRaw_iff : (∃ c, ofRaw kind raw = .ok c) ↔ kind.InRange raw := by
  simp only [ofRaw_eq_ok]
  cases kind with
  | unsigned =>
    constructor
    · rintro ⟨⟨v⟩ | ⟨v⟩, hkind, rfl⟩
      · exact ⟨Int.natCast_nonneg _, Int.ofNat_le.mpr v.raw_le⟩
      · cases hkind
    · rintro ⟨hlow, hhigh⟩
      exact ⟨.unsigned ⟨raw.toNat, by omega⟩, rfl, Int.toNat_of_nonneg hlow⟩
  | signed =>
    constructor
    · rintro ⟨⟨v⟩ | ⟨v⟩, hkind, rfl⟩
      · cases hkind
      · have hrange := v.natAbs_raw_le
        change -(Decimal.maxRaw : ℤ) ≤ v.raw ∧ v.raw ≤ Decimal.maxRaw
        omega
    · rintro ⟨hlow, hhigh⟩
      exact ⟨.signed ⟨raw, by omega⟩, rfl, rfl⟩

/-- A raw value out of range is refused with an arithmetic fault. -/
theorem refusedOnly_ofRaw (kind : DecimalKind) (raw : ℤ) :
    RefusedOnly (fun fault ↦ ∃ cause, fault = .arithmetic cause) (ofRaw kind raw) := by
  cases kind with
  | unsigned => exact RefusedOnly.map_iff.mpr (RefusedOnly.ofRaw ⟨_, rfl⟩ fun _ ↦ ⟨_, rfl⟩)
  | signed => exact RefusedOnly.map_iff.mpr (RefusedOnly.ofSignedRaw ⟨_, rfl⟩ raw)

/-- The range of the signed kind has two equal sides. -/
theorem ofRaw_neg (raw : ℤ) : ofRaw .signed (-raw) = ofRaw .signed raw >>= neg := by
  simp only [ofRaw, SignedDecimal.ofRaw, Int.natAbs_neg]
  split_ifs <;> rfl

end Number

/-! ### Operands -/

namespace Operand

variable {a b a' b' : Operand}

/-- The exact value of an operand. A flag has none; zero stands in for it. -/
def toRat : Operand → ℚ
  | number a => a.raw / Decimal.scale
  | integer n => n
  | flag _ => 0

/-- The exact value in units of the eighteenth place, which is a whole number. -/
def units : Operand → ℤ
  | number a => a.raw
  | integer n => n * Decimal.scale
  | flag _ => 0

theorem toRat_eq_units_div (a : Operand) : a.toRat = a.units / Decimal.scale := by
  have hscale := Decimal.cast_scale_pos.ne'
  cases a with
  | number a => rfl
  | integer n =>
    change (n : ℚ) = ((n * Decimal.scale : ℤ) : ℚ) / Decimal.scale
    rw [Int.cast_mul, Int.cast_natCast, mul_div_cancel_right₀ _ hscale]
  | flag b => simp [toRat, units]

theorem toRat_eq_zero : a.toRat = 0 ↔ a.units = 0 := by
  have hscale := Decimal.cast_scale_pos.ne'
  rw [toRat_eq_units_div, div_eq_zero_iff, or_iff_left hscale, Int.cast_eq_zero]

/-- Operands that can be combined: decimals and whole numbers, of which one is a decimal. -/
inductive Combines : Operand → Operand → Prop
  | numbers (x y : Number) : Combines (number x) (number y)
  | byInteger (x : Number) (n : ℤ) : Combines (number x) (integer n)
  | integerBy (n : ℤ) (y : Number) : Combines (integer n) (number y)

theorem Combines.symm (h : Combines a b) : Combines b a := by
  cases h with
  | numbers x y => exact .numbers y x
  | byInteger x n => exact .integerBy n x
  | integerBy n y => exact .byInteger y n

/-- The same operand, up to the kind of a decimal. -/
inductive Recast : Operand → Operand → Prop
  | number {x y : Number} (h : y.raw = x.raw) : Recast (number x) (number y)
  | integer (n : ℤ) : Recast (integer n) (integer n)

theorem Recast.toRat_eq (h : Recast a a') : a'.toRat = a.toRat := by
  cases h with
  | number h => rw [toRat, toRat, h]
  | integer n => rfl

theorem Combines.recast (h : Combines a b) (ha : Recast a a') (hb : Recast b b') :
    Combines a' b' := by
  cases h with
  | numbers x y =>
    cases ha with | number _ => cases hb with | number _ => exact .numbers _ _
  | byInteger x n =>
    cases ha with | number _ => cases hb with | integer _ => exact .byInteger _ _
  | integerBy n y =>
    cases ha with | integer _ => cases hb with | number _ => exact .integerBy _ _

end Operand

/-! ### Operators -/

/-- The operators of arithmetic. -/
inductive Operator where
  | plus
  | minus
  | times
  | dividedBy
deriving DecidableEq

namespace Operator

variable {a b : Operand}

/-- Applies an operator to two operands. -/
def apply : Operator → Operand → Operand → Except Fault Number
  | plus => Operand.add
  | minus => Operand.sub
  | times => Operand.mul
  | dividedBy => Operand.div

/-- The exact operation. -/
def exact : Operator → ℚ → ℚ → ℚ
  | plus => (· + ·)
  | minus => (· - ·)
  | times => (· * ·)
  | dividedBy => (· / ·)

/-- The exact result in units of the eighteenth place. -/
def exactUnits (op : Operator) (a b : Operand) : ℚ :=
  Decimal.scale * op.exact a.toRat b.toRat

/-- The kind of the result: a product is signed as soon as a factor is, and everything else has the
kind of the left decimal. -/
def kind : Operator → Operand → Operand → DecimalKind
  | times, .number (.unsigned _), .number y => y.kind
  | _, .number x, _ => x.kind
  | _, _, .number y => y.kind
  | _, _, _ => .unsigned

/-- What an operator asks of its operands. A quotient has a decimal on the left, and a divisor that
is not zero; a whole number that divides a signed decimal has to be a signed decimal itself. -/
def Accepts (op : Operator) (a b : Operand) : Prop :=
  op = dividedBy → (∃ x, a = .number x) ∧ b.toRat ≠ 0 ∧
    ∀ x n, a = .number (.signed x) → b = .integer n →
      DecimalKind.signed.InRange (n * Decimal.scale)

/-! The exact results through whole numbers of units. -/

theorem exactUnits_plus (a b : Operand) : plus.exactUnits a b = ((a.units + b.units : ℤ) : ℚ) := by
  have hscale := Decimal.cast_scale_pos.ne'
  simp only [exactUnits, exact, Operand.toRat_eq_units_div]
  field_simp
  push_cast
  rfl

theorem exactUnits_minus (a b : Operand) :
    minus.exactUnits a b = ((a.units - b.units : ℤ) : ℚ) := by
  have hscale := Decimal.cast_scale_pos.ne'
  simp only [exactUnits, exact, Operand.toRat_eq_units_div]
  field_simp
  push_cast
  rfl

theorem exactUnits_times (a b : Operand) :
    times.exactUnits a b = ((a.units * b.units : ℤ) : ℚ) / (Decimal.scale : ℤ) := by
  have hscale := Decimal.cast_scale_pos.ne'
  simp only [exactUnits, exact, Operand.toRat_eq_units_div]
  push_cast
  field_simp

theorem exactUnits_dividedBy (a b : Operand) :
    dividedBy.exactUnits a b = ((a.units * Decimal.scale : ℤ) : ℚ) / b.units := by
  have hscale := Decimal.cast_scale_pos.ne'
  simp only [exactUnits, exact, Operand.toRat_eq_units_div]
  push_cast
  field_simp

/-! ### What an operator gives -/

theorem add_eq (h : a.Combines b) :
    a.add b = Number.ofRaw (plus.kind a b) (a.units + b.units) := by
  cases h <;> rfl

theorem sub_eq (h : a.Combines b) :
    a.sub b = Number.ofRaw (minus.kind a b) (a.units - b.units) := by
  cases h <;> rfl

/-- A product of two decimals is the product of their units, rounded as the kind rounds. -/
theorem mul_numbers_eq (x y : Number) :
    Operand.mul (.number x) (.number y) = Number.ofRaw (times.kind (.number x) (.number y))
      ((times.kind (.number x) (.number y)).round
        (((x.raw * y.raw : ℤ) : ℚ) / (Decimal.scale : ℤ))) := by
  have hsigned (z w : Number) : DecimalKind.signed.round
      (((z.raw * w.raw : ℤ) : ℚ) / (Decimal.scale : ℤ)) = (z.raw * w.raw).tdiv Decimal.scale :=
    towardZero_div _ _
  cases x with
  | signed x => exact congrArg (Number.ofRaw .signed) (hsigned (.signed x) y).symm
  | unsigned x =>
    cases y with
    | signed y => exact congrArg (Number.ofRaw .signed) (hsigned (.unsigned x) (.signed y)).symm
    | unsigned y =>
      have hround : DecimalKind.unsigned.round
          (((x.raw * y.raw : ℤ) : ℚ) / (Decimal.scale : ℤ)) =
            ((x.raw * y.raw / Decimal.scale : ℕ) : ℤ) := by
        rw [DecimalKind.round, floor_div_eq_fdiv,
          Int.fdiv_eq_ediv_of_nonneg _ (Int.natCast_nonneg _)]
        push_cast
        rfl
      exact congrArg (Number.ofRaw .unsigned) hround.symm

theorem mul_eq (h : a.Combines b) :
    a.mul b = Number.ofRaw (times.kind a b) ((times.kind a b).round (times.exactUnits a b)) := by
  -- A whole number multiplies the units, and nothing is rounded.
  have hwhole (k n : ℤ) :
      ((k * (n * Decimal.scale) : ℤ) : ℚ) / (Decimal.scale : ℤ) = (k * n : ℤ) := by
    have hscale := Decimal.cast_scale_pos.ne'
    push_cast
    field_simp
  rw [exactUnits_times]
  cases h with
  | numbers x y => exact mul_numbers_eq x y
  | byInteger x n =>
    rw [Operand.units, Operand.units, hwhole, DecimalKind.round_intCast]
    cases x <;> rfl
  | integerBy n y =>
    rw [mul_comm, Operand.units, Operand.units, hwhole, DecimalKind.round_intCast]
    cases y <;> rfl

/-- A quotient of units is rounded as the kind of the left decimal rounds. -/
theorem divRaw_eq {n m : ℤ} (kind : DecimalKind) (hm : m ≠ 0) :
    Operand.divRaw kind n m =
      Number.ofRaw kind (kind.round (((n * Decimal.scale : ℤ) : ℚ) / m)) := by
  unfold Operand.divRaw
  rw [if_neg hm]
  cases kind with
  | unsigned => exact congrArg (Number.ofRaw .unsigned) (floor_div_eq_fdiv _ _).symm
  | signed => exact congrArg (Number.ofRaw .signed) (towardZero_div _ _).symm

/-- An unsigned decimal is divided by a whole number as by the decimal of that value, in range or
not. -/
theorem div_unsigned_integer (x : Decimal) (n : ℤ) :
    Operand.div (.number (.unsigned x)) (.integer n) =
      Operand.divRaw .unsigned x.raw (n * Decimal.scale) := rfl

/-- The whole number that divides a signed decimal is brought into range first. -/
theorem div_signed_integer (x : SignedDecimal) (n : ℤ) :
    Operand.div (.number (.signed x)) (.integer n) =
      SignedDecimal.ofInt n >>= fun v ↦ Operand.divRaw .signed x.raw v.raw := rfl

/-- A whole number in range as a signed decimal. -/
theorem exists_signed_ofInt {n : ℤ} (h : DecimalKind.signed.InRange (n * Decimal.scale)) :
    ∃ v, SignedDecimal.ofInt n = .ok v ∧ v.raw = n * Decimal.scale := by
  obtain ⟨hlow, hhigh⟩ := h
  exact ⟨⟨n * Decimal.scale, by omega⟩, SignedDecimal.ofRaw_eq_ok.mpr rfl, rfl⟩

theorem div_eq (h : a.Combines b) (haccepts : dividedBy.Accepts a b) :
    a.div b = Number.ofRaw (dividedBy.kind a b)
      ((dividedBy.kind a b).round (dividedBy.exactUnits a b)) := by
  obtain ⟨⟨x, rfl⟩, hzero, hfits⟩ := haccepts rfl
  rw [Ne, Operand.toRat_eq_zero] at hzero
  rw [exactUnits_dividedBy]
  cases h with
  | numbers x y => exact divRaw_eq x.kind hzero
  | byInteger x n =>
    cases x with
    | unsigned x => exact divRaw_eq .unsigned hzero
    | signed x =>
      obtain ⟨v, hv, hraw⟩ := exists_signed_ofInt (hfits x n rfl rfl)
      rw [div_signed_integer, hv, ok_bind, hraw]
      exact divRaw_eq .signed hzero

/-- The result of an operator on operands that it accepts. -/
theorem apply_eq {op : Operator} (h : a.Combines b) (haccepts : op.Accepts a b) :
    op.apply a b = Number.ofRaw (op.kind a b) ((op.kind a b).round (op.exactUnits a b)) := by
  cases op with
  | plus => rw [exactUnits_plus, DecimalKind.round_intCast, ← add_eq h, apply]
  | minus => rw [exactUnits_minus, DecimalKind.round_intCast, ← sub_eq h, apply]
  | times => exact mul_eq h
  | dividedBy => exact div_eq h haccepts

theorem ne_zero_of_divRaw {kind : DecimalKind} {n m : ℤ} {c : Number}
    (h : Operand.divRaw kind n m = .ok c) : m ≠ 0 := by
  unfold Operand.divRaw at h
  split_ifs at h with hm
  exact hm

/-- Operands that there is a result for are accepted. -/
theorem accepts_of_apply {op : Operator} {c : Number} (h : a.Combines b)
    (hc : op.apply a b = .ok c) : op.Accepts a b := by
  rintro rfl
  cases h with
  | integerBy n y => cases hc
  | numbers x y =>
    refine ⟨⟨x, rfl⟩, Operand.toRat_eq_zero.not.mpr (ne_zero_of_divRaw hc), ?_⟩
    rintro z n - ⟨⟩
  | byInteger x n =>
    cases x with
    | unsigned x =>
      rw [apply, div_unsigned_integer] at hc
      refine ⟨⟨_, rfl⟩, Operand.toRat_eq_zero.not.mpr (ne_zero_of_divRaw hc), ?_⟩
      rintro z m ⟨⟩
    | signed x =>
      -- The divisor is in range because it has been made a decimal before the quotient is taken.
      rw [apply, div_signed_integer] at hc
      obtain ⟨v, hv, hdiv⟩ := bind_eq_ok.mp hc
      have hraw : v.raw = n * Decimal.scale := SignedDecimal.ofRaw_eq_ok.mp hv
      rw [hraw] at hdiv
      refine ⟨⟨_, rfl⟩, Operand.toRat_eq_zero.not.mpr (ne_zero_of_divRaw hdiv), ?_⟩
      rintro z m - ⟨⟩
      have hrange := v.natAbs_raw_le
      rw [DecimalKind.InRange, ← hraw]
      omega

/-- What an operator gives: on operands that it accepts, the exact result rounded as its kind is
rounded, if that is in range. -/
theorem apply_eq_ok {op : Operator} {c : Number} (h : a.Combines b) :
    op.apply a b = .ok c ↔
      op.Accepts a b ∧ c.kind = op.kind a b ∧ c.raw = (op.kind a b).round (op.exactUnits a b) := by
  constructor
  · intro hc
    have haccepts := accepts_of_apply h hc
    rw [apply_eq h haccepts, Number.ofRaw_eq_ok] at hc
    exact ⟨haccepts, hc⟩
  · rintro ⟨haccepts, hc⟩
    rw [apply_eq h haccepts, Number.ofRaw_eq_ok]
    exact hc

theorem exists_apply_iff {op : Operator} (h : a.Combines b) :
    (∃ c, op.apply a b = .ok c) ↔
      op.Accepts a b ∧ (op.kind a b).InRange ((op.kind a b).round (op.exactUnits a b)) := by
  simp only [apply_eq_ok h, exists_and_left, ← Number.exists_ofRaw_iff, Number.ofRaw_eq_ok]

theorem refusedOnly_divRaw (kind : DecimalKind) (n m : ℤ) :
    RefusedOnly (fun fault ↦ ∃ cause, fault = .arithmetic cause) (Operand.divRaw kind n m) := by
  by_cases hm : m = 0
  · unfold Operand.divRaw
    rw [if_pos hm, RefusedOnly.error_iff]
    exact ⟨_, rfl⟩
  · rw [divRaw_eq kind hm]
    exact Number.refusedOnly_ofRaw _ _

/-- With a decimal on the left of a quotient there are arithmetic faults only. -/
theorem refusedOnly_apply {op : Operator} (h : a.Combines b)
    (hleft : op = dividedBy → ∃ x, a = .number x) :
    RefusedOnly (fun fault ↦ ∃ cause, fault = .arithmetic cause) (op.apply a b) := by
  -- A quotient is refused in two places, and all else only for the range of its result.
  by_cases hdivided : op = dividedBy
  · obtain ⟨x, rfl⟩ := hleft hdivided
    subst hdivided
    cases h with
    | numbers x y => exact refusedOnly_divRaw _ _ _
    | byInteger x n =>
      cases x with
      | unsigned x =>
        rw [apply, div_unsigned_integer]
        exact refusedOnly_divRaw _ _ _
      | signed x =>
        rw [apply, div_signed_integer, RefusedOnly.bind_iff]
        exact ⟨RefusedOnly.ofSignedRaw ⟨_, rfl⟩ _, fun v _ ↦ refusedOnly_divRaw _ _ _⟩
  · rw [apply_eq h fun hop ↦ absurd hop hdivided]
    exact Number.refusedOnly_ofRaw _ _

/-! ### Both kinds on operands that are not negative -/

variable {a' b' : Operand} {op : Operator}

theorem exactUnits_nonneg (hop : op ≠ minus) (ha : 0 ≤ a.toRat) (hb : 0 ≤ b.toRat) :
    0 ≤ op.exactUnits a b := by
  refine mul_nonneg (Nat.cast_nonneg _) ?_
  cases op with
  | plus => exact add_nonneg ha hb
  | minus => exact absurd rfl hop
  | times => exact mul_nonneg ha hb
  | dividedBy => exact div_nonneg ha hb

theorem exactUnits_recast (ha : a.Recast a') (hb : b.Recast b') :
    op.exactUnits a' b' = op.exactUnits a b := by
  rw [exactUnits, exactUnits, ha.toRat_eq, hb.toRat_eq]

/-- Two results of the same operation differ in their kind only. -/
theorem raw_eq_of_recast {c c' : Number} (h : a.Combines b) (ha : a.Recast a') (hb : b.Recast b')
    (hapos : 0 ≤ a.toRat) (hbpos : 0 ≤ b.toRat) (hc : op.apply a b = .ok c)
    (hc' : op.apply a' b' = .ok c') : c'.raw = c.raw := by
  obtain ⟨-, -, hraw⟩ := (apply_eq_ok h).mp hc
  obtain ⟨-, -, hraw'⟩ := (apply_eq_ok (h.recast ha hb)).mp hc'
  rw [exactUnits_recast ha hb] at hraw'
  rw [hraw, hraw']
  by_cases hop : op = minus
  · -- A difference may be negative, but it is a whole number of units.
    subst hop
    rw [exactUnits_minus, DecimalKind.round_intCast, DecimalKind.round_intCast]
  · have hnonneg := exactUnits_nonneg hop hapos hbpos
    rw [DecimalKind.round_of_nonneg hnonneg, DecimalKind.round_of_nonneg hnonneg]

/-- Unless a whole number divides that is no signed decimal, the kinds do not matter for what is
accepted. -/
theorem Accepts.recast
    (hfits : op = dividedBy → ∀ n, b = .integer n → DecimalKind.signed.InRange (n * Decimal.scale))
    (ha : a.Recast a') (hb : b.Recast b') (h : op.Accepts a b) : op.Accepts a' b' := by
  intro hop
  obtain ⟨⟨x, hx⟩, hzero, -⟩ := h hop
  refine ⟨?_, hb.toRat_eq ▸ hzero, ?_⟩
  · cases ha with
    | number _ => exact ⟨_, rfl⟩
    | integer n => cases hx
  · rintro - n - rfl
    cases hb with
    | integer n => exact hfits hop n rfl

/-- Sums, products and quotients of both kinds are there together. -/
theorem exists_apply_of_recast (h : a.Combines b) (ha : a.Recast a') (hb : b.Recast b')
    (hop : op ≠ minus) (hapos : 0 ≤ a.toRat) (hbpos : 0 ≤ b.toRat)
    (hfits : op = dividedBy → ∀ n, b = .integer n → DecimalKind.signed.InRange (n * Decimal.scale))
    (hc : ∃ c, op.apply a b = .ok c) : ∃ c', op.apply a' b' = .ok c' := by
  have hnonneg := exactUnits_nonneg hop hapos hbpos
  rw [exists_apply_iff h, DecimalKind.round_of_nonneg hnonneg,
    DecimalKind.inRange_iff_of_nonneg (Int.floor_nonneg.mpr hnonneg)] at hc
  rw [exists_apply_iff (h.recast ha hb), exactUnits_recast ha hb,
    DecimalKind.round_of_nonneg hnonneg,
    DecimalKind.inRange_iff_of_nonneg (Int.floor_nonneg.mpr hnonneg)]
  exact ⟨hc.1.recast hfits ha hb, hc.2⟩

end Operator

namespace Operand

variable {a b : Operand}

/-- Products do not depend on the order of the factors. -/
theorem mul_swap (h : a.Combines b) : a.mul b = b.mul a := by
  have hkind : Operator.times.kind a b = Operator.times.kind b a := by
    cases h with
    | numbers x y => cases x <;> cases y <;> rfl
    | byInteger x n => cases x <;> rfl
    | integerBy n y => cases y <;> rfl
  have hexact : Operator.times.exactUnits a b = Operator.times.exactUnits b a := by
    rw [Operator.exactUnits_times, Operator.exactUnits_times, mul_comm]
  rw [Operator.mul_eq h, Operator.mul_eq h.symm, hkind, hexact]

/-! ### Signs -/

/-- A product changes its sign with a signed factor. -/
theorem neg_mul (x : SignedDecimal) (b : Operand) :
    mul (number (.signed (-x))) b = mul (number (.signed x)) b >>= Number.neg := by
  cases b with
  | number y =>
    change Number.ofRaw .signed ((-x.raw * y.raw).tdiv Decimal.scale) = _
    rw [Int.neg_mul, Int.neg_tdiv, Number.ofRaw_neg]
    rfl
  | integer n =>
    change Number.ofRaw .signed (-x.raw * n) = _
    rw [Int.neg_mul, Number.ofRaw_neg]
    rfl
  | flag b => rfl

theorem mul_neg (y : SignedDecimal) (h : a.Combines (number (.signed y))) :
    a.mul (number (.signed (-y))) = a.mul (number (.signed y)) >>= Number.neg := by
  have hneg : a.Combines (number (.signed (-y))) := by
    cases h with
    | numbers x _ => exact .numbers x _
    | integerBy n _ => exact .integerBy n _
  rw [mul_swap hneg, neg_mul, mul_swap h]

theorem neg_divRaw (n m : ℤ) : divRaw .signed (-n) m = divRaw .signed n m >>= Number.neg := by
  by_cases hm : m = 0
  · simp only [divRaw, if_pos hm]
    rfl
  · simp only [divRaw, if_neg hm]
    rw [Int.neg_mul, Int.neg_tdiv, Number.ofRaw_neg]

theorem divRaw_neg (n m : ℤ) : divRaw .signed n (-m) = divRaw .signed n m >>= Number.neg := by
  by_cases hm : m = 0
  · subst hm
    rfl
  · simp only [divRaw, if_neg hm, if_neg (neg_ne_zero.mpr hm)]
    rw [Int.tdiv_neg, Number.ofRaw_neg]

/-- A quotient changes its sign with a signed dividend. -/
theorem neg_div (x : SignedDecimal) (b : Operand) :
    div (number (.signed (-x))) b = div (number (.signed x)) b >>= Number.neg := by
  cases b with
  | number y => exact neg_divRaw x.raw y.raw
  | integer n =>
    rw [Operator.div_signed_integer, Operator.div_signed_integer, bind_assoc]
    exact congrArg _ (funext fun v ↦ neg_divRaw x.raw v.raw)
  | flag b => rfl

/-- A signed quotient changes its sign with a signed divisor. -/
theorem div_neg (x y : SignedDecimal) :
    div (number (.signed x)) (number (.signed (-y))) =
      div (number (.signed x)) (number (.signed y)) >>= Number.neg :=
  divRaw_neg x.raw y.raw

/-! ### Decimals of one kind -/

/-- Between unsigned decimals the operators are the checked ones. -/
theorem apply_unsigned (x y : Decimal) :
    add (number (.unsigned x)) (number (.unsigned y)) = Number.unsigned <$> (x + y) ∧
      sub (number (.unsigned x)) (number (.unsigned y)) = Number.unsigned <$> (x - y) ∧
      mul (number (.unsigned x)) (number (.unsigned y)) = Number.unsigned <$> (x * y) ∧
      div (number (.unsigned x)) (number (.unsigned y)) = Number.unsigned <$> (x / y) := by
  have hnat (n : ℕ) : Decimal.ofRaw n = Decimal.ofNatRaw n := by
    rw [Decimal.ofRaw, if_neg (Int.natCast_nonneg n).not_gt, Int.toNat_natCast]
  refine ⟨congrArg (Number.unsigned <$> ·) (hnat (x.raw + y.raw)), rfl, rfl, ?_⟩
  change divRaw .unsigned x.raw y.raw = Number.unsigned <$> Decimal.div x y
  unfold divRaw Decimal.div
  by_cases hy : y.raw = 0
  · rw [if_pos hy, if_pos (Int.natCast_eq_zero.mpr hy)]
    rfl
  · have hfloor : (x.raw * Decimal.scale : ℤ).fdiv y.raw =
        ((x.raw * Decimal.scale / y.raw : ℕ) : ℤ) := by
      rw [Int.fdiv_eq_ediv_of_nonneg _ (Int.natCast_nonneg _)]
      push_cast
      rfl
    rw [if_neg hy, if_neg (Int.natCast_eq_zero.not.mpr hy), hfloor]
    exact congrArg (Number.unsigned <$> ·) (hnat (x.raw * Decimal.scale / y.raw))

/-- Between signed decimals the operators are the checked ones. -/
theorem apply_signed (x y : SignedDecimal) :
    add (number (.signed x)) (number (.signed y)) = Number.signed <$> (x + y) ∧
      sub (number (.signed x)) (number (.signed y)) = Number.signed <$> (x - y) ∧
      mul (number (.signed x)) (number (.signed y)) = Number.signed <$> (x * y) ∧
      div (number (.signed x)) (number (.signed y)) = Number.signed <$> (x / y) := by
  refine ⟨rfl, rfl, rfl, ?_⟩
  change divRaw .signed x.raw y.raw = Number.signed <$> SignedDecimal.div x y
  unfold divRaw SignedDecimal.div
  split_ifs <;> rfl

/-! ### All operators at once -/

/-- A decimal with a sign. -/
def IsSigned (a : Operand) : Prop := ∃ x, a = number (.signed x)

/-- What the arithmetic of two operands comes to. -/
structure ExactArithmetic (a b : Operand) : Prop where
  /-- Both orders of a product have the same outcome, the same number or the same fault. -/
  mul_swap : a.mul b = b.mul a
  /-- A result is the exact one, rounded as its kind is rounded. -/
  rounded : ∀ (op : Operator) c, op.apply a b = .ok c →
    c.kind = op.kind a b ∧ c.raw = (op.kind a b).round (op.exactUnits a b)
  /-- Products with a signed decimal on either side, and quotients with one on the left, are signed
  and rounded toward zero. -/
  truncated : ∀ (op : Operator) c, op.apply a b = .ok c →
    (op = .times ∧ (a.IsSigned ∨ b.IsSigned) ∨ op = .dividedBy ∧ a.IsSigned) →
      c.kind = .signed ∧ c.raw = towardZero (op.exactUnits a b)
  /-- With the sign of a signed decimal on the left, products and quotients change theirs. -/
  neg_left : ∀ x, a = number (.signed x) →
    mul (number (.signed (-x))) b = a.mul b >>= Number.neg ∧
      div (number (.signed (-x))) b = a.div b >>= Number.neg
  /-- With the sign of a signed decimal on the right, products and signed quotients change
  theirs. -/
  neg_right : ∀ y, b = number (.signed y) →
    a.mul (number (.signed (-y))) = a.mul b >>= Number.neg ∧
      (a.IsSigned → a.div (number (.signed (-y))) = a.div b >>= Number.neg)
  /-- Between unsigned decimals the operators are the checked ones of their kind. -/
  unsigned : ∀ x y : Decimal, a = number (.unsigned x) → b = number (.unsigned y) →
    a.add b = Number.unsigned <$> (x + y) ∧ a.sub b = Number.unsigned <$> (x - y) ∧
      a.mul b = Number.unsigned <$> (x * y) ∧ a.div b = Number.unsigned <$> (x / y)
  /-- Between signed decimals the operators are the checked ones of their kind. -/
  signed : ∀ x y : SignedDecimal, a = number (.signed x) → b = number (.signed y) →
    a.add b = Number.signed <$> (x + y) ∧ a.sub b = Number.signed <$> (x - y) ∧
      a.mul b = Number.signed <$> (x * y) ∧ a.div b = Number.signed <$> (x / y)
  /-- On operands that are not negative, the raw value of a result does not depend on the kinds of
  the decimals. -/
  agrees : ∀ (op : Operator) a' b' c c', a.Recast a' → b.Recast b' → 0 ≤ a.toRat → 0 ≤ b.toRat →
    op.apply a b = .ok c → op.apply a' b' = .ok c' → c'.raw = c.raw
  /-- Nor does it depend on the kinds whether there is a sum, a product or a quotient, except where
  a whole number divides that is no signed decimal. -/
  together : ∀ (op : Operator) a' b', a.Recast a' → b.Recast b' → 0 ≤ a.toRat → 0 ≤ b.toRat →
    op ≠ .minus →
    (op = .dividedBy → ∀ n, b = integer n → DecimalKind.signed.InRange (n * Decimal.scale)) →
      (∃ c, op.apply a b = .ok c) → ∃ c', op.apply a' b' = .ok c'
  /-- A whole number is not divided. -/
  misused : ∀ n, a = integer n → a.div b = .error .operands
  /-- All else gives a number or an arithmetic fault. -/
  total : ∀ op : Operator, (op = .dividedBy → ∃ x, a = number x) →
    (∃ c, op.apply a b = .ok c) ∨ ∃ cause, op.apply a b = .error (.arithmetic cause)
  /-- There is a fault exactly if the divisor is zero, or a whole number that divides a signed
  decimal is out of range as one, or the rounded result is out of the range of its kind. -/
  refused : ∀ op : Operator, (op = .dividedBy → ∃ x, a = number x) →
    ((∃ cause, op.apply a b = .error (.arithmetic cause)) ↔
      (op = .dividedBy ∧ b.toRat = 0) ∨
      (op = .dividedBy ∧ ∃ x n, a = number (.signed x) ∧ b = integer n ∧
        ¬ DecimalKind.signed.InRange (n * Decimal.scale)) ∨
      ¬ (op.kind a b).InRange ((op.kind a b).round (op.exactUnits a b)))

theorem kind_of_isSigned {op : Operator} (h : a.Combines b)
    (hop : op = .times ∧ (a.IsSigned ∨ b.IsSigned) ∨ op = .dividedBy ∧ a.IsSigned) :
    op.kind a b = .signed := by
  rcases hop with ⟨rfl, ⟨x, rfl⟩ | ⟨y, rfl⟩⟩ | ⟨rfl, x, rfl⟩
  · cases h <;> rfl
  · cases h with
    | numbers x _ => cases x <;> rfl
    | integerBy n _ => rfl
  · cases h <;> rfl

theorem refused_iff {op : Operator} (h : a.Combines b)
    (hleft : op = .dividedBy → ∃ x, a = number x) :
    (∃ cause, op.apply a b = .error (.arithmetic cause)) ↔
      (op = .dividedBy ∧ b.toRat = 0) ∨
      (op = .dividedBy ∧ ∃ x n, a = number (.signed x) ∧ b = integer n ∧
        ¬ DecimalKind.signed.InRange (n * Decimal.scale)) ∨
      ¬ (op.kind a b).InRange ((op.kind a b).round (op.exactUnits a b)) := by
  have hsplit : (∃ cause, op.apply a b = .error (.arithmetic cause)) ↔
      ¬ ∃ c, op.apply a b = .ok c := by
    constructor
    · rintro ⟨cause, herror⟩ ⟨c, hc⟩
      rw [herror] at hc
      cases hc
    · exact (Operator.refusedOnly_apply h hleft).ok_or_arithmetic.resolve_left
  rw [hsplit, Operator.exists_apply_iff h, not_and_or, ← or_assoc]
  refine or_congr_left ?_
  constructor
  · intro hrefused
    by_contra! hfits
    refine hrefused fun hop ↦ ⟨hleft hop, hfits.1 hop, fun x n hx hn ↦ ?_⟩
    exact hfits.2 hop x n hx hn
  · rintro (⟨hop, hzero⟩ | ⟨hop, x, n, hx, hn, hout⟩) haccepts
    · exact (haccepts hop).2.1 hzero
    · exact hout ((haccepts hop).2.2 x n hx hn)

/-- The arithmetic of signed and unsigned decimals and whole numbers, in every mix with at least one
decimal. -/
theorem arithmetic_exact (h : a.Combines b) : ExactArithmetic a b where
  mul_swap := mul_swap h
  rounded op c hc := ((Operator.apply_eq_ok h).mp hc).2
  truncated op c hc hop := by
    obtain ⟨-, hkind, hraw⟩ := (Operator.apply_eq_ok h).mp hc
    rw [kind_of_isSigned h hop] at hkind hraw
    exact ⟨hkind, hraw⟩
  neg_left := by
    rintro x rfl
    exact ⟨neg_mul x b, neg_div x b⟩
  neg_right := by
    rintro y rfl
    refine ⟨mul_neg y h, ?_⟩
    rintro ⟨x, rfl⟩
    exact div_neg x y
  unsigned := by
    rintro x y rfl rfl
    exact apply_unsigned x y
  signed := by
    rintro x y rfl rfl
    exact apply_signed x y
  agrees op a' b' c c' ha hb hapos hbpos hc hc' :=
    Operator.raw_eq_of_recast h ha hb hapos hbpos hc hc'
  together op a' b' ha hb hapos hbpos hop hfits hc :=
    Operator.exists_apply_of_recast h ha hb hop hapos hbpos hfits hc
  misused := by
    rintro n rfl
    cases h with
    | integerBy n y => rfl
  total op hleft := (Operator.refusedOnly_apply h hleft).ok_or_arithmetic
  refused op hleft := refused_iff h hleft

/-- The product of `1.5` with minus one unit of the eighteenth place is rounded to minus one unit,
in both orders, and not down to minus two; the third part of that unit is rounded to zero. -/
theorem arithmetic_exact_unit :
    ∃ (x : Decimal) (y : SignedDecimal), x.raw = 1_500_000_000_000_000_000 ∧ y.raw = -1 ∧
      Combines (number (.unsigned x)) (number (.signed y)) ∧
      (∃ c, mul (number (.unsigned x)) (number (.signed y)) = .ok c ∧
        mul (number (.signed y)) (number (.unsigned x)) = .ok c ∧ c.kind = .signed ∧ c.raw = -1) ∧
      Combines (number (.signed y)) (integer 3) ∧
      ∃ c, div (number (.signed y)) (integer 3) = .ok c ∧ c.kind = .signed ∧ c.raw = 0 := by
  let x : Decimal := ⟨1_500_000_000_000_000_000, by decide⟩
  let y : SignedDecimal := ⟨-1, by decide⟩
  have hproduct := arithmetic_exact (.numbers (.unsigned x) (.signed y))
  have hquotient := arithmetic_exact (.byInteger (.signed y) 3)
  obtain ⟨c, hc, -⟩ := exists_of_any (mul (number (.unsigned x)) (number (.signed y)))
    (fun _ ↦ true) (by decide +kernel)
  obtain ⟨d, hd, -⟩ := exists_of_any (div (number (.signed y)) (integer 3))
    (fun _ ↦ true) (by decide +kernel)
  obtain ⟨hkind, hraw⟩ := hproduct.truncated .times c hc (.inl ⟨rfl, .inr ⟨y, rfl⟩⟩)
  obtain ⟨hkind', hraw'⟩ := hquotient.truncated .dividedBy d hd (.inr ⟨rfl, y, rfl⟩)
  exact ⟨x, y, rfl, rfl, .numbers _ _,
    ⟨c, hc, hproduct.mul_swap ▸ hc, hkind, hraw.trans (by decide +kernel)⟩, .byInteger _ _,
    d, hd, hkind', hraw'.trans (by decide +kernel)⟩

end Operand

end ConcentratedPool
