import ConcentratedPool.Proofs.DecimalRounding
import ConcentratedPool.Proofs.Refusals
import ConcentratedPool.Proofs.SwapValue

/-!
# What a limit on the spread protects

A trader may limit what a swap loses, against a price that the trader believes in or against the
price scale. `checkSpread` compares a quotient that is rounded down with the limit, so that the
exact quotient may be above the limit by less than one unit of the last place, and a refusal is
always justified. Both ways of measuring are inverted here (`checkSpread_some_eq_ok`,
`checkSpread_none_eq_ok`), and what the trader gets from a swap that is carried out, when a swap is
refused, and that a higher limit accepts more are in `slippageLimit_enforced`.
-/

set_option autoImplicit false
set_option relaxedAutoImplicit false

namespace ConcentratedPool

/-! ### Quotients against a limit -/

/-- A quotient, rounded down, is within a limit exactly when the exact one is below the next unit of
the last place. That it can be represented follows. -/
theorem Decimal.exists_div_le_iff {a b limit : Decimal} :
    (∃ c, (a / b : Except Fault Decimal) = .ok c ∧ c ≤ limit) ↔
      a.raw * scale < (limit.raw + 1) * b.raw := by
  constructor
  · rintro ⟨c, hc, hle⟩
    obtain ⟨hb, hraw⟩ := div_eq_ok.mp hc
    rw [← Nat.div_lt_iff_lt_mul (Nat.pos_of_ne_zero hb), ← hraw]
    exact Nat.lt_succ_of_le hle
  · intro hlt
    have hb : 0 < b.raw := by
      rcases Nat.eq_zero_or_pos b.raw with hzero | hpos
      · rw [hzero] at hlt
        omega
      · exact hpos
    have hquotient : a.raw * scale / b.raw ≤ limit.raw :=
      Nat.le_of_lt_succ ((Nat.div_lt_iff_lt_mul hb).mpr hlt)
    exact ⟨⟨_, hquotient.trans limit.raw_le⟩, div_eq_ok.mpr ⟨hb.ne', rfl⟩, hquotient⟩

/-- A quotient above a limit is above it before it is rounded as well. -/
theorem Decimal.toRat_lt_div_of_lt {a b c limit : Decimal}
    (h : (a / b : Except Fault Decimal) = .ok c) (hlt : limit < c) :
    limit.toRat < (a.raw / b.raw : ℚ) := by
  have hscale := cast_scale_pos.ne'
  calc limit.toRat < c.toRat := toRat_lt_toRat.mpr hlt
    _ ≤ a.toRat / b.toRat := (toRat_div_bounds h).2.1
    _ = a.raw / b.raw := div_div_div_cancel_right₀ hscale _ _

/-! ### The two measures -/

section Check

variable {limit : Option Decimal} {offer output spread : Decimal}

/-- The limit that is in force: the usual one where the trader sets none. -/
def limitInForce (limit : Option Decimal) : Decimal := limit.getD Limits.defaultSlippage

/-- What an offer should bring at a price in units of the offer, in raw units and rounded down. -/
def expectedReturn (offer price : Decimal) : ℕ := offer.raw * Decimal.scale / price.raw

/-- The part that a swap loses, without any rounding after the expected return: of the return that
the trader believes in, or of the output before the spread. -/
def exactLoss (belief : Option Decimal) (offer output spread : Decimal) : ℚ :=
  match belief with
  | some price => ((expectedReturn offer price : ℚ) - output.raw) / expectedReturn offer price
  | none => spread.raw / (output.raw + spread.raw)

/-- With a belief, a swap is accepted exactly when the limit is an allowed one, the belief is
positive and the output does not fall short of the expected return by more than the limit, up to one
unit of the last place. -/
theorem checkSpread_some_eq_ok {price : Decimal} :
    checkSpread (some price) limit offer output spread = .ok () ↔
      limitInForce limit ≤ Limits.maxSlippage ∧ ∃ expected,
        (offer / price : Except Fault Decimal) = .ok expected ∧ (output < expected →
          (expected.raw - output.raw) * Decimal.scale <
            ((limitInForce limit).raw + 1) * expected.raw) := by
  have hwithin (expected : Decimal) : (expected.raw - output.raw) * Decimal.scale <
      ((limitInForce limit).raw + 1) * expected.raw ↔ _ :=
    (Decimal.exists_div_le_iff (a := expected.monus output)).symm
  unfold checkSpread
  simp only [refuse_eq_ok, bind_eq_ok]
  simp only [hwithin, branch_eq_ok, bind_eq_ok, throw_ne_ok, pure_eq_ok, and_false, false_or,
    and_true, Decimal.isZero_eq_true, Decimal.lt_def, Decimal.le_def, not_lt]
  constructor
  · rintro ⟨hallowed, -, expected, hexpected, hloss⟩
    refine ⟨hallowed, expected, hexpected, fun hlt ↦ ?_⟩
    rcases hloss with ⟨-, hloss⟩ | hnot
    · exact hloss
    · exact absurd hlt (not_lt.mpr hnot)
  · rintro ⟨hallowed, expected, hexpected, hloss⟩
    refine ⟨hallowed, (Decimal.div_eq_ok.mp hexpected).1, expected, hexpected, ?_⟩
    rcases lt_or_ge output.raw expected.raw with hlt | hge
    · exact .inl ⟨hlt, hloss hlt⟩
    · exact .inr hge

/-- Without a belief, a swap is accepted exactly when the limit is an allowed one and the spread is
within it as a part of the output before the spread, up to one unit of the last place. -/
theorem checkSpread_none_eq_ok :
    checkSpread none limit offer output spread = .ok () ↔
      limitInForce limit ≤ Limits.maxSlippage ∧ ∃ whole,
        (output + spread : Except Fault Decimal) = .ok whole ∧
          spread.raw * Decimal.scale < ((limitInForce limit).raw + 1) * whole.raw := by
  unfold checkSpread
  rw [refuse_eq_ok]
  simp only [branch_eq_ok, bind_eq_ok, throw_ne_ok, pure_eq_ok, and_false, false_or, and_true,
    ← Decimal.exists_div_le_iff, Decimal.lt_def, Decimal.le_def, not_lt]
  rfl

/-- What is accepted stays so when the limit is raised, up to the largest one. -/
theorem checkSpread_mono (belief : Option Decimal) {higher : Decimal}
    (h : checkSpread belief limit offer output spread = .ok ())
    (hle : limitInForce limit ≤ higher) (hmax : higher ≤ Limits.maxSlippage) :
    checkSpread belief (some higher) offer output spread = .ok () := by
  have hraise (whole : Decimal) :
      ((limitInForce limit).raw + 1) * whole.raw ≤ (higher.raw + 1) * whole.raw :=
    Nat.mul_le_mul_right _ (Nat.succ_le_succ hle)
  cases belief with
  | none =>
    obtain ⟨-, whole, hwhole, hwithin⟩ := checkSpread_none_eq_ok.mp h
    exact checkSpread_none_eq_ok.mpr ⟨hmax, whole, hwhole, hwithin.trans_le (hraise whole)⟩
  | some price =>
    obtain ⟨-, expected, hexpected, hwithin⟩ := checkSpread_some_eq_ok.mp h
    exact checkSpread_some_eq_ok.mpr
      ⟨hmax, expected, hexpected, fun hshort ↦ (hwithin hshort).trans_le (hraise expected)⟩

/-- What a trader has from the limit in force, for a swap of `offer` units that gives `output` at
the given spread. With a belief, the output is no further below the expected return than the limit
allows, up to one unit of the last place; without one, the spread is within the limit as a part of
the output before the spread, again up to one unit. -/
structure Protected (belief limit : Option Decimal) (offer output spread : Decimal) : Prop where
  allowed : limitInForce limit ≤ Limits.maxSlippage
  believed : ∀ price, belief = some price → 0 < price.raw ∧
    (expectedReturn offer price : ℤ) * (Decimal.scale - (limitInForce limit).raw - 1) ≤
      output.raw * Decimal.scale
  unbelieved : belief = none →
    spread.raw * Decimal.scale < ((limitInForce limit).raw + 1) * (output.raw + spread.raw)

/-- A swap that is accepted protects the trader. -/
theorem protected_of_checkSpread (belief : Option Decimal)
    (h : checkSpread belief limit offer output spread = .ok ()) :
    Protected belief limit offer output spread := by
  cases belief with
  | none =>
    obtain ⟨hallowed, whole, hwhole, hwithin⟩ := checkSpread_none_eq_ok.mp h
    rw [Decimal.add_eq_ok.mp hwhole] at hwithin
    exact ⟨hallowed, nofun, fun _ ↦ hwithin⟩
  | some price =>
    obtain ⟨hallowed, expected, hexpected, hwithin⟩ := checkSpread_some_eq_ok.mp h
    obtain ⟨hprice, hraw⟩ := Decimal.div_eq_ok.mp hexpected
    refine ⟨hallowed, ?_, nofun⟩
    rintro _ ⟨⟩
    refine ⟨Nat.pos_of_ne_zero hprice, ?_⟩
    rw [expectedReturn, ← hraw]
    rcases lt_or_ge output.raw expected.raw with hshort | henough
    · have hloss := hwithin hshort
      zify [hshort.le] at hloss
      linarith
    · have hscaled : (expected.raw : ℤ) * Decimal.scale ≤ output.raw * Decimal.scale := by
        exact_mod_cast Nat.mul_le_mul_right _ henough
      have hlimit : (0 : ℤ) ≤ expected.raw * ((limitInForce limit).raw + 1) := by positivity
      linarith

/-- What a refusal for the spread reports: the limit in force, which the exact loss is above. -/
def Justified (belief limit : Option Decimal) (offer output spread : Decimal) : Fault → Prop
  | .spread _ reported _ =>
    reported = limitInForce limit ∧ reported.toRat < exactLoss belief offer output spread
  | _ => True

/-- A swap is refused for its spread only where the exact loss is above the limit: the quotient that
is compared with the limit is rounded down. -/
theorem justified_of_checkSpread (belief : Option Decimal) :
    RefusedOnly (Justified belief limit offer output spread)
      (checkSpread belief limit offer output spread) := by
  unfold checkSpread
  simp only [RefusedOnly.refuse_iff]
  refine ⟨fun _ ↦ trivial, fun _ ↦ ?_⟩
  cases belief with
  | none =>
    simp only [RefusedOnly.ite_iff, RefusedOnly.bind_iff, RefusedOnly.throw_iff, RefusedOnly.pure,
      implies_true, and_true]
    refine ⟨.add trivial, fun whole hwhole ↦
      ⟨.div trivial fun _ ↦ trivial, fun ratio hratio habove ↦ ⟨rfl, ?_⟩⟩⟩
    have hloss := Decimal.toRat_lt_div_of_lt hratio habove
    rwa [Decimal.add_eq_ok.mp hwhole, Nat.cast_add] at hloss
  | some price =>
    simp only [RefusedOnly.refuse_iff]
    simp only [RefusedOnly.ite_iff, RefusedOnly.bind_iff, RefusedOnly.throw_iff, RefusedOnly.pure,
      implies_true, and_true]
    refine ⟨fun _ ↦ trivial, fun _ ↦ ⟨.div trivial fun _ ↦ trivial, fun expected hexpected hshort ↦
      ⟨.div trivial fun _ ↦ trivial, fun ratio hratio habove ↦ ⟨rfl, ?_⟩⟩⟩⟩
    have hloss := Decimal.toRat_lt_div_of_lt hratio habove
    have hmissed : (expected.monus output).raw = expected.raw - output.raw := rfl
    rwa [hmissed, Nat.cast_sub (Decimal.lt_def.mp hshort).le, (Decimal.div_eq_ok.mp hexpected).2]
      at hloss

/-- Where a swap pays something, no quotient of the check has the divisor zero: without a belief
the output is part of the divisor, and with one the expected return is above the output wherever it
is divided by. -/
theorem divides_of_checkSpread (belief : Option Decimal) (houtput : 0 < output.raw) :
    RefusedOnly (· ≠ .arithmetic .divisionByZero)
      (checkSpread belief limit offer output spread) := by
  have hover : Fault.arithmetic .overflow ≠ .arithmetic .divisionByZero := by decide
  unfold checkSpread
  simp only [RefusedOnly.refuse_iff, ne_eq, reduceCtorEq, not_false_eq_true, implies_true,
    true_and]
  intro _
  cases belief with
  | none =>
    simp only [RefusedOnly.ite_iff, RefusedOnly.bind_iff, RefusedOnly.throw_iff, RefusedOnly.pure,
      reduceCtorEq, not_false_eq_true, implies_true, and_true]
    refine ⟨.add hover, fun whole hwhole ↦ .div hover fun hzero ↦ ?_⟩
    rw [Decimal.add_eq_ok.mp hwhole] at hzero
    omega
  | some price =>
    simp only [RefusedOnly.refuse_iff, reduceCtorEq, not_false_eq_true, implies_true, true_and]
    simp only [RefusedOnly.ite_iff, RefusedOnly.bind_iff, RefusedOnly.throw_iff, RefusedOnly.pure,
      reduceCtorEq, not_false_eq_true, implies_true, and_true]
    refine fun hprice ↦ ⟨.div hover fun hzero ↦ absurd (Decimal.isZero_eq_true.mpr hzero) hprice,
      fun expected _ hshort ↦ .div hover fun hzero ↦ ?_⟩
    rw [Decimal.lt_def] at hshort
    omega

end Check

/-! ### Swaps -/

namespace Pool

/-- A swap that is carried out keeps to the limit of its trader, measured on the exact output of the
curve. A refusal for the spread is justified, no quotient of the check has the divisor zero where
the swap pays something, and what is accepted at a limit is accepted at every higher one that is
allowed. -/
theorem slippageLimit_enforced :
    (∀ (p next : Pool) (balances : List ℤ) (offer : Offer) (amount supply now : ℤ)
        (terms : SwapTerms) (receipt : TradeReceipt),
      p.swap balances offer amount supply now terms = .ok (receipt, next) →
      ∃ pools dec q, p.side offer = .ok receipt.side ∧
        p.liftOffer balances receipt.side amount = .ok (pools, dec) ∧
        quoteSwap p.state p.params pools dec receipt.side.other now
          (terms.makerShare.getD .zero) = .ok q ∧
        Protected terms.belief terms.maxSpread dec q.output q.spread) ∧
    ∀ (belief limit : Option Decimal) (offer output spread : Decimal),
      (∀ loss reported expected,
        checkSpread belief limit offer output spread = .error (.spread loss reported expected) →
        reported = limitInForce limit ∧ reported.toRat < exactLoss belief offer output spread) ∧
      (0 < output.raw →
        checkSpread belief limit offer output spread ≠ .error (.arithmetic .divisionByZero)) ∧
      ∀ higher, checkSpread belief limit offer output spread = .ok () →
        limitInForce limit ≤ higher → higher ≤ Limits.maxSlippage →
        checkSpread belief (some higher) offer output spread = .ok () := by
  refine ⟨?_, fun belief limit offer output spread ↦ ⟨?_, ?_, ?_⟩⟩
  · intro p next balances offer amount supply now terms receipt h
    obtain ⟨trace⟩ := nonempty_swapTrace h
    exact ⟨trace.pools, trace.dec, trace.quote, trace.hside, trace.hlift, trace.hquote,
      protected_of_checkSpread terms.belief trace.hspread⟩
  · intro loss reported expected h
    exact justified_of_checkSpread belief _ h
  · intro houtput h
    exact divides_of_checkSpread belief houtput _ h rfl
  · intro higher h hle hmax
    exact checkSpread_mono belief h hle hmax

/-- One hundredth. -/
def hundredth : Decimal := ⟨Decimal.scale / 100, by decide⟩

/-- A unit is swapped in an even pool, once at a believed price of one and a limit of one hundredth,
once against the price scale and the usual limit. Half of what was expected is refused at the usual
limit, and the full return is accepted there and at the largest one. -/
theorem slippageLimit_enforced_even :
    (∃ receipt next dec, ∃ q : SwapQuote,
      Ledger.even.pool.swap Ledger.even.balances (.index 0) 1_000_000 Ledger.even.supply 600
        ⟨some .one, some hundredth, none⟩ = .ok (receipt, next) ∧
      Protected (some .one) (some hundredth) dec q.output q.spread) ∧
    (∃ receipt next dec, ∃ q : SwapQuote,
      Ledger.even.pool.swap Ledger.even.balances (.index 0) 1_000_000 Ledger.even.supply 600
        ⟨none, none, none⟩ = .ok (receipt, next) ∧
      Protected none none dec q.output q.spread) ∧
    (checkSpread (some .one) none .one Limits.maxSlippage .zero =
        .error (.spread Limits.maxSlippage Limits.defaultSlippage (some .one)) ∧
      Limits.defaultSlippage.toRat < exactLoss (some .one) .one Limits.maxSlippage .zero ∧
      checkSpread (some .one) none .one Limits.maxSlippage .zero ≠
        .error (.arithmetic .divisionByZero)) ∧
    checkSpread (some .one) none .one .one .zero = .ok () ∧
    checkSpread (some .one) (some Limits.maxSlippage) .one .one .zero = .ok () := by
  obtain ⟨hswap, hcheck⟩ := slippageLimit_enforced
  refine ⟨?_, ?_, ?_, ?_⟩
  · obtain ⟨⟨receipt, next⟩, hdone, -⟩ := exists_of_any
      (Ledger.even.pool.swap Ledger.even.balances (.index 0) 1_000_000 Ledger.even.supply 600
        ⟨some .one, some hundredth, none⟩) (fun _ ↦ true) (by decide +kernel)
    obtain ⟨_, dec, q, -, -, -, hprotected⟩ := hswap _ _ _ _ _ _ _ _ _ hdone
    exact ⟨receipt, next, dec, q, hdone, hprotected⟩
  · obtain ⟨⟨receipt, next⟩, hdone, -⟩ := exists_of_any
      (Ledger.even.pool.swap Ledger.even.balances (.index 0) 1_000_000 Ledger.even.supply 600
        ⟨none, none, none⟩) (fun _ ↦ true) (by decide +kernel)
    obtain ⟨_, dec, q, -, -, -, hprotected⟩ := hswap _ _ _ _ _ _ _ _ _ hdone
    exact ⟨receipt, next, dec, q, hdone, hprotected⟩
  · obtain ⟨hjustified, hdivides, -⟩ := hcheck (some .one) none .one Limits.maxSlippage .zero
    have hrefused : checkSpread (some .one) none .one Limits.maxSlippage .zero =
        .error (.spread Limits.maxSlippage Limits.defaultSlippage (some .one)) := by
      decide +kernel
    exact ⟨hrefused, (hjustified _ _ _ hrefused).2, hdivides (by decide)⟩
  · obtain ⟨-, -, hraise⟩ := hcheck (some .one) none .one .one .zero
    have haccepted : checkSpread (some .one) none .one .one .zero = .ok () := by decide +kernel
    exact ⟨haccepted, hraise Limits.maxSlippage haccepted (by decide) (by decide)⟩

end Pool

end ConcentratedPool
