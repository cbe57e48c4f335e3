import ConcentratedPool.Proofs.FeeRates
import ConcentratedPool.Proofs.Refusals

/-!
# What an uneven deposit pays

The fee rate of a deposit is that of a swap, times the part of the deposit that is out of the ratio
of the pool. It is no more than the rate of a swap, because that part is a fraction. A deposit in
the ratio of the pool misses the part that it is compared with (`Fee.matchingBase`) by one unit of
the last place at most, and a fee rate below one takes nothing off one unit, so that it pays
nothing.

Where the outer fee is below one, the rate leaves something of the shares. The difference that is
taken for it is one of three differences of unsigned decimals in the quote of a deposit, and no
other step can fall below zero (`NoUnderflow`), so that no deposit is refused for a negative
difference. Both are in `Fee.depositRate_leaves_share`.
-/

set_option autoImplicit false
set_option relaxedAutoImplicit false

namespace ConcentratedPool

/-! ### Computations that do not underflow -/

/-- A computation that is not refused because a difference of unsigned decimals is negative. -/
def NoUnderflow {α : Type} (x : Except Fault α) : Prop := x ≠ .error (.arithmetic .underflow)

namespace NoUnderflow

section Chain

variable {α β : Type} {x y : Except Fault α}

/-- Not to underflow is to be refused in other ways only. -/
theorem iff_refusedOnly : NoUnderflow x ↔ RefusedOnly (· ≠ .arithmetic .underflow) x := by
  constructor
  · rintro h _ hfault rfl
    exact h hfault
  · exact fun h hunderflow ↦ h _ hunderflow rfl

@[simp] theorem ok (a : α) : NoUnderflow (.ok a) := iff_refusedOnly.mpr (.ok a)

@[simp] theorem pure (a : α) : NoUnderflow (Pure.pure a) := ok a

@[simp] theorem throw_iff {e : Fault} :
    NoUnderflow (throw e : Except Fault α) ↔ e ≠ .arithmetic .underflow := by
  rw [iff_refusedOnly, RefusedOnly.throw_iff]

/-- A chain does not underflow exactly when its first part does not, nor the rest from there. -/
@[simp] theorem bind_iff {f : α → Except Fault β} :
    NoUnderflow (x >>= f) ↔ NoUnderflow x ∧ ∀ a, x = .ok a → NoUnderflow (f a) := by
  simp only [iff_refusedOnly, RefusedOnly.bind_iff]

@[simp] theorem map_iff {f : α → β} : NoUnderflow (f <$> x) ↔ NoUnderflow x := by
  simp only [iff_refusedOnly, RefusedOnly.map_iff]

@[simp] theorem ite_iff {c : Prop} [Decidable c] :
    NoUnderflow (if c then x else y) ↔ (c → NoUnderflow x) ∧ (¬ c → NoUnderflow y) := by
  simp only [iff_refusedOnly, RefusedOnly.ite_iff]

end Chain

/-! ### Single operations -/

section Decimal

variable (a b : Decimal)

@[simp] theorem add : NoUnderflow (a + b : Except Fault Decimal) :=
  iff_refusedOnly.mpr (.add nofun)

@[simp] theorem mul : NoUnderflow (a * b : Except Fault Decimal) :=
  iff_refusedOnly.mpr (.mul nofun)

@[simp] theorem div : NoUnderflow (a / b : Except Fault Decimal) :=
  iff_refusedOnly.mpr (.div nofun nofun)

@[simp] theorem sqrt : NoUnderflow a.sqrt := iff_refusedOnly.mpr (.sqrt nofun)

/-- Only a negative raw value underflows. -/
theorem ofRaw {n : ℤ} (hn : 0 ≤ n) : NoUnderflow (Decimal.ofRaw n) :=
  iff_refusedOnly.mpr (.ofRaw nofun fun hneg ↦ absurd hn hneg.not_ge)

/-- A difference does not underflow where what is taken off is there. -/
theorem sub {a b : Decimal} (hba : b ≤ a) : NoUnderflow (a - b : Except Fault Decimal) :=
  iff_refusedOnly.mpr (.sub nofun fun hlt ↦ absurd (Decimal.lt_def.mp hlt) (Nat.not_lt.mpr hba))

@[simp] theorem unitsOf (precision : ℤ) : NoUnderflow (Decimal.unitsOf precision) := by
  unfold Decimal.unitsOf
  split_ifs
  · rintro ⟨⟩
  · exact ok _

@[simp] theorem toTokens (precision : ℤ) : NoUnderflow (a.toTokens precision) := by
  simp [Decimal.toTokens]

@[simp] theorem ofTokens (amount : ℕ) (precision : ℤ) :
    NoUnderflow (Decimal.ofTokens amount precision) := by
  simp only [Decimal.ofTokens, bind_iff, unitsOf, true_and]
  intro unit _
  exact ofRaw (by positivity)

end Decimal

section Signed

variable (a b : SignedDecimal)

@[simp] theorem signedAdd : NoUnderflow (a + b : Except Fault SignedDecimal) :=
  iff_refusedOnly.mpr (.signedAdd nofun)

@[simp] theorem signedSub : NoUnderflow (a - b : Except Fault SignedDecimal) :=
  iff_refusedOnly.mpr (.signedSub nofun)

@[simp] theorem signedMul : NoUnderflow (a * b : Except Fault SignedDecimal) :=
  iff_refusedOnly.mpr (.signedMul nofun)

@[simp] theorem signedDiv : NoUnderflow (a / b : Except Fault SignedDecimal) :=
  iff_refusedOnly.mpr (.signedDiv nofun nofun)

@[simp] theorem isClose : NoUnderflow (SignedDecimal.isClose a b) :=
  iff_refusedOnly.mpr (.isClose nofun)

@[simp] theorem toUnsigned : NoUnderflow a.toUnsigned :=
  iff_refusedOnly.mpr (.toUnsigned nofun nofun)

end Signed

/-! ### The curve -/

/-- An iteration does not underflow where no step and no comparison does. -/
theorem settle {α : Type} {solver : Solver} {step : α → Except Fault α}
    {close : α → α → Except Fault Bool} (hstep : ∀ x, NoUnderflow (step x))
    (hclose : ∀ x y, NoUnderflow (close x y)) (steps : ℕ) (x : α) :
    NoUnderflow (ConcentratedPool.settle solver step close steps x) := by
  induction steps generalizing x with
  | zero => rintro ⟨⟩
  | succ steps ih => simp [ConcentratedPool.settle, hstep, hclose, ih]

@[simp] theorem coefficients (c : Curve) (d : SignedDecimal) (x : Pair SignedDecimal) :
    NoUnderflow (c.coefficients d x) := by
  simp [Curve.coefficients]

/-- Newton's method for the invariant computes in signed decimals. -/
@[simp] theorem stepInvariant (c : Curve) (x : Pair SignedDecimal) (d : SignedDecimal) :
    NoUnderflow (c.stepInvariant x d) := by
  simp [Curve.stepInvariant, Curve.residual, Curve.slopeInvariant, Curve.newtonStep]

@[simp] theorem invariant (a : AmpGamma) (x : Pair Decimal) :
    NoUnderflow (a.invariant x.toList) := by
  simp [AmpGamma.invariant, AmpGamma.positiveBalances, Pair.ofBalances, Curve.solveInvariant,
    geometricMean, settle]

@[simp] theorem virtualCapital (d scale : Decimal) :
    NoUnderflow (ConcentratedPool.virtualCapital d scale) := by
  simp [ConcentratedPool.virtualCapital, geometricMean]

@[simp] theorem scaledBalances (scale : Decimal) (pools : Pair Decimal) :
    NoUnderflow (ConcentratedPool.scaledBalances scale pools) := by
  simp [ConcentratedPool.scaledBalances, toValue]

end NoUnderflow

/-! ### The rate of a deposit -/

namespace Fee

variable {x deposit : Pair Decimal} {schedule : FeeSchedule} {fee : Decimal}

/-- The base part of a deposit of the same worth that is in the ratio of the balances, in raw
units. -/
def matchingBase (deposit x : Pair Decimal) : ℕ :=
  (deposit.base.raw + deposit.quote.raw) * x.base.raw / Decimal.scale * Decimal.scale /
    (x.base.raw + x.quote.raw)

theorem matchingBase_le : matchingBase deposit x ≤ deposit.base.raw + deposit.quote.raw := by
  unfold matchingBase
  refine le_trans (Nat.div_le_div_right (Nat.div_mul_le_self _ _)) ?_
  exact mul_div_le_of_le _ (Nat.le_add_right _ _)

/-- What a deposit has more or less of the base asset than one in the ratio of the balances, in raw
units. -/
def missedBase (deposit x : Pair Decimal) : ℕ :=
  (deposit.base.raw - matchingBase deposit x) + (matchingBase deposit x - deposit.base.raw)

theorem missedBase_le : missedBase deposit x ≤ deposit.base.raw + deposit.quote.raw := by
  have hmatching : matchingBase deposit x ≤ _ := matchingBase_le
  unfold missedBase
  omega

/-- A deposit in the ratio of the balances matches itself, but for one unit of the last place: the
unit that the product loses is less than the balances together, by which it is divided. -/
theorem missedBase_of_ratio
    (hratio : deposit.base.raw * x.quote.raw = deposit.quote.raw * x.base.raw)
    (hpool : Decimal.scale ≤ x.base.raw + x.quote.raw) : missedBase deposit x ≤ 1 := by
  have hpos : 0 < x.base.raw + x.quote.raw := Decimal.scale_pos.trans_le hpool
  have hexact : (deposit.base.raw + deposit.quote.raw) * x.base.raw =
      deposit.base.raw * (x.base.raw + x.quote.raw) := by
    rw [Nat.add_mul, ← hratio, Nat.mul_add]
  have hbelow : matchingBase deposit x ≤ deposit.base.raw := by
    unfold matchingBase
    rw [hexact]
    refine Nat.div_le_of_le_mul ((Nat.div_mul_le_self _ _).trans ?_)
    rw [Nat.mul_comm]
  have habove : deposit.base.raw ≤ matchingBase deposit x + 1 := by
    unfold matchingBase
    rw [hexact, ← Nat.sub_le_iff_le_add, Nat.le_div_iff_mul_le hpos, Nat.sub_mul, Nat.one_mul]
    have hlost := Nat.lt_div_mul_add (a := deposit.base.raw * (x.base.raw + x.quote.raw))
      Decimal.scale_pos
    omega
  unfold missedBase
  omega

/-- The rate of a deposit is that of a swap for what the deposit has more or less of the base asset
than one in the ratio of the balances. It is zero where there is no deposit or no pool. -/
theorem exists_of_depositRate (h : depositRate deposit x schedule = .ok fee) :
    fee = .zero ∧ (deposit.base.raw + deposit.quote.raw = 0 ∨ x.base.raw + x.quote.raw = 0) ∨
      ∃ swapFee, rate x schedule = .ok swapFee ∧
        fee.raw = missedBase deposit x * swapFee.raw / Decimal.scale * Decimal.scale /
          (deposit.base.raw + deposit.quote.raw) := by
  simp only [depositRate, bind_eq_ok, Decimal.add_eq_ok] at h
  obtain ⟨total, htotal, poolTotal, hpoolTotal, h⟩ := h
  rcases branch_eq_ok.mp h with ⟨hempty, hzero⟩ | ⟨-, hrate⟩
  · left
    refine ⟨(pure_eq_ok.mp hzero).symm, ?_⟩
    rw [← htotal, ← hpoolTotal]
    simpa using hempty
  · right
    simp only [bind_eq_ok, Decimal.mul_eq_ok, Decimal.div_eq_ok] at hrate
    obtain ⟨product, hproduct, balanced, ⟨-, hbalanced⟩, swapFee, hswapFee, part, hpart, -, hfee⟩ :=
      hrate
    have hmatching : balanced.raw = matchingBase deposit x := by
      rw [hbalanced, hproduct, htotal, hpoolTotal]
      rfl
    refine ⟨swapFee, hswapFee, ?_⟩
    rw [hfee, hpart, htotal, missedBase, ← hmatching]
    rfl

/-- The part of a deposit that is out of the ratio pays the rate of a swap at most. -/
theorem missed_mul_le (deposit x : Pair Decimal) (swapFee : ℕ) :
    missedBase deposit x * swapFee / Decimal.scale * Decimal.scale /
      (deposit.base.raw + deposit.quote.raw) ≤ swapFee :=
  calc missedBase deposit x * swapFee / Decimal.scale * Decimal.scale /
        (deposit.base.raw + deposit.quote.raw)
      ≤ missedBase deposit x * swapFee / (deposit.base.raw + deposit.quote.raw) :=
        Nat.div_le_div_right (Nat.div_mul_le_self _ _)
    _ = swapFee * missedBase deposit x / (deposit.base.raw + deposit.quote.raw) := by
        rw [Nat.mul_comm]
    _ ≤ swapFee := mul_div_le_of_le _ missedBase_le

/-- The rate of a deposit is no more than the rate of a swap, where there are a deposit and a
pool. -/
theorem exists_rate_of_depositRate (h : depositRate deposit x schedule = .ok fee)
    (hdeposit : 0 < deposit.base.raw + deposit.quote.raw) (hpool : 0 < x.base.raw + x.quote.raw) :
    ∃ swapFee, rate x schedule = .ok swapFee ∧ fee ≤ swapFee := by
  rcases exists_of_depositRate h with ⟨-, hempty⟩ | ⟨swapFee, hrate, hfee⟩
  · omega
  · exact ⟨swapFee, hrate, Decimal.le_def.mpr (hfee ▸ missed_mul_le deposit x swapFee.raw)⟩

/-- The rate of a deposit is no more than the outer fee. -/
theorem depositRate_le_out (h : depositRate deposit x schedule = .ok fee) :
    fee ≤ schedule.out := by
  rcases exists_of_depositRate h with ⟨rfl, -⟩ | ⟨swapFee, hrate, hfee⟩
  · exact Nat.zero_le _
  · rw [Decimal.le_def, hfee]
    exact (missed_mul_le deposit x swapFee.raw).trans (rate_mem hrate).2

/-- A deposit in the ratio of the pool pays no fee, as long as the outer fee is below one. -/
theorem depositRate_of_ratio (h : depositRate deposit x schedule = .ok fee)
    (hout : schedule.out < .one)
    (hratio : deposit.base.raw * x.quote.raw = deposit.quote.raw * x.base.raw)
    (hpool : Decimal.scale ≤ x.base.raw + x.quote.raw) : fee = .zero := by
  rcases exists_of_depositRate h with ⟨hzero, -⟩ | ⟨swapFee, hrate, hfee⟩
  · exact hzero
  have hsmall : missedBase deposit x * swapFee.raw < Decimal.scale :=
    calc missedBase deposit x * swapFee.raw ≤ 1 * swapFee.raw :=
          Nat.mul_le_mul_right _ (missedBase_of_ratio hratio hpool)
      _ = swapFee.raw := Nat.one_mul _
      _ ≤ schedule.out.raw := (rate_mem hrate).2
      _ < Decimal.scale := hout
  rw [Decimal.ext_iff, hfee, Nat.div_eq_of_lt hsmall, Nat.zero_mul, Nat.zero_div]
  rfl

/-! ### Deposits are not refused for a negative difference -/

theorem noUnderflow_outerShare (x : Pair Decimal) (gamma : Decimal) :
    NoUnderflow (outerShare x gamma) := by
  have hskew : NoUnderflow (skew x) := by
    simp [skew]
  have hrest : ∀ s total share : Decimal, total.raw = s.raw + gamma.raw →
      share.raw = s.raw * Decimal.scale / total.raw →
      NoUnderflow (Decimal.one - share : Except Fault Decimal) := by
    intro s total share htotal hshare
    refine NoUnderflow.sub ?_
    rw [Decimal.le_def, hshare, htotal, Nat.mul_comm]
    exact mul_div_le_of_le _ (Nat.le_add_right _ _)
  simp only [outerShare, NoUnderflow.bind_iff, hskew, NoUnderflow.add, NoUnderflow.div,
    Decimal.add_eq_ok, Decimal.div_eq_ok, true_and]
  intro s _ total htotal share hshare
  simp [hrest s total share htotal hshare.2]

/-- The rate of a swap does not underflow where the middle fee is no more than the outer one. -/
theorem noUnderflow_rate (hfees : schedule.mid ≤ schedule.out) :
    NoUnderflow (rate x schedule) := by
  simp [rate, noUnderflow_outerShare, NoUnderflow.sub hfees]

theorem noUnderflow_depositRate (hfees : schedule.mid ≤ schedule.out) :
    NoUnderflow (depositRate deposit x schedule) := by
  simp [depositRate, noUnderflow_rate hfees]

theorem noUnderflow_firstShare (capital : Decimal) : NoUnderflow (firstShare capital) := by
  simp only [firstShare, NoUnderflow.bind_iff, NoUnderflow.toTokens, NoUnderflow.ite_iff,
    NoUnderflow.throw_iff, NoUnderflow.ofTokens, ne_eq, reduceCtorEq, not_false_eq_true,
    implies_true, and_self]

theorem noUnderflow_impliedPrice (scale : Decimal) (deposits balances : Pair Decimal)
    (supply share : Decimal) : NoUnderflow (impliedPrice scale deposits balances supply share) := by
  simp [impliedPrice]

/-- No quote of a deposit underflows, where the fees are in order and below one. Of the differences
in it, two are in the rate of a swap and one is what the fee leaves. -/
theorem noUnderflow_quoteDeposit {state : PoolState} {params : PoolParams}
    {pools deposits : Pair Decimal} {supply : Decimal} {now : ℤ}
    (hfees : params.fees.mid ≤ params.fees.out) (hout : params.fees.out < .one) :
    NoUnderflow (quoteDeposit state params pools deposits supply now) := by
  have hkept : ∀ {deposit x fee}, depositRate deposit x params.fees = .ok fee →
      NoUnderflow (Decimal.one - fee : Except Fault Decimal) := fun hfee ↦
    NoUnderflow.sub ((depositRate_le_out hfee).trans (Nat.le_of_lt hout))
  simp only [quoteDeposit, NoUnderflow.ite_iff, NoUnderflow.bind_iff, NoUnderflow.throw_iff,
    NoUnderflow.pure, NoUnderflow.add, NoUnderflow.mul, NoUnderflow.div, NoUnderflow.toTokens,
    NoUnderflow.invariant, NoUnderflow.virtualCapital, NoUnderflow.scaledBalances,
    noUnderflow_firstShare, noUnderflow_depositRate hfees, noUnderflow_impliedPrice, ne_eq,
    reduceCtorEq, not_false_eq_true, throw_ne_ok, IsEmpty.forall_iff, implies_true, true_and,
    and_true]
  -- What is left of the chain is the difference that the fee is taken from.
  intros
  exact hkept (by assumption)

/-- The fee rate of a deposit, for fees that are in order and below one. It is no more than the
outer fee, and no more than the rate of a swap where there are a deposit and a pool. It leaves
something of the shares, and no deposit is refused for a negative difference. A deposit that is
exactly in the ratio of a pool worth at least one unit pays no fee. -/
theorem depositRate_leaves_share {schedule : FeeSchedule} (hfees : schedule.mid ≤ schedule.out)
    (hout : schedule.out < .one) :
    (∀ deposit x fee, depositRate deposit x schedule = .ok fee →
      fee ≤ schedule.out ∧
      (0 < deposit.base.raw + deposit.quote.raw → 0 < x.base.raw + x.quote.raw →
        ∃ swapFee, rate x schedule = .ok swapFee ∧ fee ≤ swapFee) ∧
      (∃ kept, (Decimal.one - fee : Except Fault Decimal) = .ok kept ∧ 0 < kept.raw) ∧
      (deposit.base.raw * x.quote.raw = deposit.quote.raw * x.base.raw →
        Decimal.scale ≤ x.base.raw + x.quote.raw → fee = .zero)) ∧
    ∀ (state : PoolState) (params : PoolParams) (pools deposits : Pair Decimal) (supply : Decimal)
      (now : ℤ), params.fees = schedule →
      NoUnderflow (quoteDeposit state params pools deposits supply now) := by
  constructor
  · intro deposit x fee h
    have hle := depositRate_le_out h
    refine ⟨hle, exists_rate_of_depositRate h, ?_, depositRate_of_ratio h hout⟩
    have hless : fee.raw < Decimal.one.raw := Nat.lt_of_le_of_lt hle hout
    exact ⟨Decimal.one.monus fee, Decimal.sub_eq_ok.mpr (Nat.sub_add_cancel hless.le),
      Nat.sub_pos_of_lt hless⟩
  · rintro state params pools deposits supply now rfl
    exact noUnderflow_quoteDeposit hfees hout

/-- Balances of three and seven parts of which ten are just above one unit. -/
def threeToSeven : Pair Decimal :=
  ⟨⟨300_000_000_000_000_009, by decide⟩, ⟨700_000_000_000_000_021, by decide⟩⟩

/-- A deposit in the ratio of these balances, which misses the part that it is compared with. -/
def threeToSevenDeposit : Pair Decimal :=
  ⟨⟨30_000_000_000_000_021, by decide⟩, ⟨70_000_000_000_000_049, by decide⟩⟩

/-- With the usual fees a deposit of ten units of one asset into a pool of three units and ten pays
less than a swap, and one in the ratio of a small pool pays nothing, though it misses its part by
one unit of the last place. A deposit of one unit of each is not refused for a negative
difference. -/
theorem depositRate_leaves_share_usual :
    (∃ fee swapFee, depositRate ⟨.ten, .zero⟩ lopsided Pool.usual.params.fees = .ok fee ∧
      rate lopsided Pool.usual.params.fees = .ok swapFee ∧ 0 < fee.raw ∧ fee ≤ swapFee ∧
      ∃ kept, (Decimal.one - fee : Except Fault Decimal) = .ok kept ∧ 0 < kept.raw) ∧
    missedBase threeToSevenDeposit threeToSeven = 1 ∧
    depositRate threeToSevenDeposit threeToSeven Pool.usual.params.fees = .ok .zero ∧
    NoUnderflow (quoteDeposit Pool.usual.state Pool.usual.params lopsided ⟨.one, .one⟩ .ten 0) := by
  have hfees : Pool.usual.params.fees.mid ≤ Pool.usual.params.fees.out := by decide
  have hout : Pool.usual.params.fees.out < .one := by decide
  obtain ⟨hrates, hquotes⟩ := depositRate_leaves_share hfees hout
  obtain ⟨fee, hfee, hpos⟩ := exists_of_any
    (depositRate ⟨.ten, .zero⟩ lopsided Pool.usual.params.fees) (fun fee ↦ 0 < fee.raw)
    (by decide +kernel)
  obtain ⟨even, heven, -⟩ := exists_of_any
    (depositRate threeToSevenDeposit threeToSeven Pool.usual.params.fees) (fun _ ↦ true)
    (by decide +kernel)
  refine ⟨?_, by decide, ?_, hquotes _ _ _ _ _ _ rfl⟩
  · obtain ⟨-, hswap, hkept, -⟩ := hrates _ _ _ hfee
    obtain ⟨swapFee, hswapFee, hle⟩ := hswap (by decide) (by decide)
    exact ⟨fee, swapFee, hfee, hswapFee, of_decide_eq_true hpos, hle, hkept⟩
  · obtain ⟨-, -, -, hratio⟩ := hrates _ _ _ heven
    rw [heven, hratio (by decide) (by decide)]

end Fee

end ConcentratedPool
