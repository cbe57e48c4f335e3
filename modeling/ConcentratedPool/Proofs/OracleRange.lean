import ConcentratedPool.Proofs.HalfPowerSeries
import ConcentratedPool.Proofs.PoolInvariant
import ConcentratedPool.Proofs.UpdateExits

/-!
# The range of the oracle

The oracle of a pool is a moving average of the prices of trades. A move blends the last price into
it with a weight that is a power of one half. Such a power is given for every time and every
half-life and is at most one (`PriceState.exists_oracleWeight`, `PriceState.oracleWeight_le_one`),
so that a move is an average, and its two products, each rounded down, lose less than two units of
the last place between them: the new oracle is between the last price and the old oracle, less one
unit (`PriceState.oracle_of_moveOracle`).

Over a run of calls the units add up. `PriceState.Enclosed` is what a run preserves: the last price
is one of the prices seen, and the oracle is between two of them, up to a unit for each call.
`oracle_range` puts both together.
-/

set_option autoImplicit false
set_option relaxedAutoImplicit false

namespace ConcentratedPool

/-! ### One blend -/

/-- An average of two amounts whose two parts are rounded down is between the two, less one unit. -/
theorem blend_between {a b weight scale : ℕ} (hscale : 0 < scale) (hweight : weight ≤ scale) :
    min a b ≤ a * (scale - weight) / scale + b * weight / scale + 1 ∧
      a * (scale - weight) / scale + b * weight / scale ≤ max a b := by
  obtain ⟨rest, rfl⟩ := Nat.exists_eq_add_of_le hweight
  rw [Nat.add_sub_cancel_left]
  constructor
  · have hfirst := Nat.lt_div_mul_add (a := a * rest) hscale
    have hsecond := Nat.lt_div_mul_add (a := b * weight) hscale
    have hmin : min a b * (weight + rest) ≤ a * rest + b * weight := by
      rw [Nat.mul_add, Nat.add_comm]
      exact Nat.add_le_add (Nat.mul_le_mul_right _ (min_le_left a b))
        (Nat.mul_le_mul_right _ (min_le_right a b))
    refine Nat.le_of_lt_succ (Nat.lt_of_mul_lt_mul_right (a := weight + rest) ?_)
    calc min a b * (weight + rest) ≤ a * rest + b * weight := hmin
      _ < a * rest / (weight + rest) * (weight + rest) + (weight + rest) +
          (b * weight / (weight + rest) * (weight + rest) + (weight + rest)) := by omega
      _ = (a * rest / (weight + rest) + b * weight / (weight + rest) + 1 + 1) *
          (weight + rest) := by ring
  · refine Nat.le_of_mul_le_mul_right ?_ hscale
    calc (a * rest / (weight + rest) + b * weight / (weight + rest)) * (weight + rest)
        = a * rest / (weight + rest) * (weight + rest) +
          b * weight / (weight + rest) * (weight + rest) := by ring
      _ ≤ a * rest + b * weight :=
          Nat.add_le_add (Nat.div_mul_le_self _ _) (Nat.div_mul_le_self _ _)
      _ ≤ max a b * rest + max a b * weight :=
          Nat.add_le_add (Nat.mul_le_mul_right _ (le_max_left a b))
            (Nat.mul_le_mul_right _ (le_max_right a b))
      _ = max a b * (weight + rest) := by ring

namespace PriceState

variable {s t : PriceState} {halfTime now : ℤ} {weight : Decimal}

/-- The oracle keeps at most all of itself. -/
theorem oracleWeight_le_one (h : s.oracleWeight halfTime now = .ok weight) :
    weight.raw ≤ Decimal.scale := by
  unfold oracleWeight at h
  rcases branch_eq_ok.mp h with ⟨-, hzero⟩ | ⟨-, hpower⟩
  · cases hzero
    exact Nat.zero_le _
  · simp only [bind_eq_ok] at hpower
    obtain ⟨power, -, hpower⟩ := hpower
    obtain ⟨v, hv, hle⟩ := exists_halfPower power
    obtain rfl : v = weight := Except.ok.inj (hv.symm.trans hpower)
    exact hle

/-- There is a weight for every half-life and every time that is not more than `10⁴⁰` seconds
ahead. -/
theorem exists_oracleWeight (hhalf : 0 ≤ halfTime) (hlate : s.updated < now)
    (hsoon : now - s.updated < 10 ^ 40) : ∃ weight, s.oracleWeight halfTime now = .ok weight := by
  unfold oracleWeight
  split_ifs with hzero
  · exact ⟨_, rfl⟩
  have hpos : 0 < halfTime := lt_of_le_of_ne hhalf (Ne.symm hzero)
  have helapsed : 0 ≤ (now - s.updated) * Decimal.scale := mul_nonneg (by omega) (by decide)
  have hratio : (now - s.updated) * Decimal.scale / halfTime ≤ Decimal.maxRaw := by
    calc (now - s.updated) * Decimal.scale / halfTime ≤ (now - s.updated) * Decimal.scale :=
          Int.ediv_le_self _ helapsed
      _ ≤ 10 ^ 40 * Decimal.scale := mul_le_mul_of_nonneg_right hsoon.le (by decide)
      _ ≤ Decimal.maxRaw := by decide
  have hquotient : 0 ≤ (now - s.updated) * Decimal.scale / halfTime :=
    Int.ediv_nonneg helapsed hpos.le
  obtain ⟨n, hn⟩ := Int.eq_ofNat_of_zero_le hquotient
  have hpower : Decimal.ofRatio (now - s.updated) halfTime = .ok ⟨n, by omega⟩ := by
    rw [Decimal.ofRatio, if_neg hzero, Decimal.ofRaw_eq_ok, Int.fdiv_eq_ediv_of_nonneg _ hpos.le]
    exact hn.symm
  obtain ⟨v, hv, -⟩ := exists_halfPower ⟨n, by omega⟩
  refine ⟨v, ?_⟩
  simp only [bind_eq_ok]
  exact ⟨_, hpower, hv⟩

/-- A move of the oracle puts it between the last price and itself, less one unit of the last
place. -/
theorem oracle_of_moveOracle (h : s.moveOracle halfTime now = .ok t) :
    min s.last.raw s.oracle.raw ≤ t.oracle.raw + 1 ∧
      t.oracle.raw ≤ max s.last.raw s.oracle.raw := by
  unfold moveOracle at h
  rcases branch_eq_ok.mp h with ⟨-, hsame⟩ | ⟨-, hblend⟩
  · obtain rfl := pure_eq_ok.mp hsame
    exact ⟨(min_le_right _ _).trans (Nat.le_succ _), le_max_right _ _⟩
  · simp only [bind_eq_ok, pure_eq_ok, Decimal.sub_eq_ok, Decimal.mul_eq_ok,
      Decimal.add_eq_ok] at hblend
    obtain ⟨weight, hweight, rest, hrest, fresh, hfresh, kept, hkept, oracle, horacle, rfl⟩ :=
      hblend
    have hrest : rest.raw = Decimal.scale - weight.raw := Nat.eq_sub_of_add_eq hrest
    have hbetween := blend_between (a := s.last.raw) (b := s.oracle.raw) Decimal.scale_pos
      (oracleWeight_le_one hweight)
    show _ ≤ oracle.raw + 1 ∧ oracle.raw ≤ _
    rwa [horacle, hfresh, hkept, hrest]

/-- A share of an amount is no more than the amount. -/
theorem exists_mul_weight (a : Decimal) (hweight : weight.raw ≤ Decimal.scale) :
    ∃ c, (a * weight : Except Fault Decimal) = .ok c := by
  have hle : a.raw * weight.raw / Decimal.scale ≤ a.raw := by
    refine Nat.div_le_of_le_mul ?_
    rw [Nat.mul_comm]
    exact Nat.mul_le_mul_right _ hweight
  exact ⟨⟨_, hle.trans a.raw_le⟩, Decimal.mul_eq_ok.mpr rfl⟩

/-- Up to `10⁴⁰` seconds after the last move the oracle can be moved. -/
theorem exists_moveOracle (hhalf : 0 ≤ halfTime) (hsoon : now - s.updated < 10 ^ 40) :
    ∃ t, s.moveOracle halfTime now = .ok t := by
  unfold moveOracle
  split_ifs with hlate
  · exact ⟨s, rfl⟩
  obtain ⟨weight, hweight⟩ := exists_oracleWeight hhalf (not_le.mp hlate) hsoon
  have hone := oracleWeight_le_one hweight
  let rest : Decimal := ⟨Decimal.scale - weight.raw, (Nat.sub_le _ _).trans Decimal.one.raw_le⟩
  have hrest : rest.raw ≤ Decimal.scale := Nat.sub_le _ _
  obtain ⟨fresh, hfresh⟩ := exists_mul_weight s.last hrest
  obtain ⟨kept, hkept⟩ := exists_mul_weight s.oracle hone
  have hbetween := blend_between (a := s.last.raw) (b := s.oracle.raw) Decimal.scale_pos hone
  have hroom : fresh.raw + kept.raw ≤ Decimal.maxRaw := by
    rw [Decimal.mul_eq_ok.mp hfresh, Decimal.mul_eq_ok.mp hkept]
    exact hbetween.2.trans (max_le s.last.raw_le s.oracle.raw_le)
  refine ⟨{ s with oracle := ⟨_, hroom⟩, updated := now }, ?_⟩
  simp only [bind_eq_ok, pure_eq_ok]
  exact ⟨weight, hweight, rest, Decimal.sub_eq_ok.mpr (Nat.sub_add_cancel hone), fresh, hfresh,
    kept, hkept, _, Decimal.add_eq_ok.mpr rfl, rfl⟩

/-! ### Runs -/

/-- What a run of `n` calls preserves, for a list of prices that holds all that it has seen: the
last price is one of them, and the oracle is between two of them, less `n` units of the last
place. -/
structure Enclosed (prices : List Decimal) (n : ℕ) (s : PriceState) : Prop where
  last : s.last ∈ prices
  above : ∃ high ∈ prices, s.oracle ≤ high
  below : ∃ low ∈ prices, low.raw ≤ s.oracle.raw + n

variable {prices : List Decimal} {n : ℕ}

/-- A call that changes nothing costs nothing. -/
theorem Enclosed.succ (h : s.Enclosed prices n) : s.Enclosed prices (n + 1) := by
  obtain ⟨low, hmem, hlow⟩ := h.below
  exact ⟨h.last, h.above, low, hmem, by omega⟩

/-- A move of the oracle costs one unit. -/
theorem Enclosed.moveOracle (h : s.Enclosed prices n) (hmove : s.moveOracle halfTime now = .ok t) :
    t.Enclosed prices (n + 1) := by
  obtain ⟨hbelow, habove⟩ := oracle_of_moveOracle hmove
  obtain ⟨oracle, updated, rfl, -⟩ := exists_eq_of_moveOracle hmove
  obtain ⟨high, hhigh, hhighLe⟩ := h.above
  obtain ⟨low, hlow, hlowLe⟩ := h.below
  rw [Decimal.le_def] at hhighLe
  refine ⟨h.last, ?_, ?_⟩
  · rcases le_total s.last.raw s.oracle.raw with hle | hle
    · exact ⟨high, hhigh, (habove.trans_eq (max_eq_right hle)).trans hhighLe⟩
    · exact ⟨s.last, h.last, habove.trans_eq (max_eq_left hle)⟩
  · rcases le_total s.last.raw s.oracle.raw with hle | hle
    · rw [min_eq_left hle] at hbelow
      exact ⟨s.last, h.last, by omega⟩
    · rw [min_eq_right hle] at hbelow
      exact ⟨low, hlow, by omega⟩

end PriceState

/-- A call that moves the oracle of a pool: by itself, or in the course of a price update. -/
inductive PriceCall where
  | move (params : PoolParams) (now : ℤ)
  | update (params : PoolParams) (now : ℤ) (supply : Decimal) (xs : List Decimal) (last : Decimal)

namespace PriceCall

/-- The price that a call brings in. -/
def price? : PriceCall → Option Decimal
  | move _ _ => none
  | update _ _ _ _ last => some last

end PriceCall

namespace PoolState

/-- The state that a call leaves behind, also where it is refused. -/
def after (s : PoolState) : PriceCall → PoolState
  | .move params now =>
    match s.price.moveOracle params.halfTime now with
    | .ok price => { s with price }
    | .error _ => s
  | .update params now supply xs last => (s.updatePrice params now supply xs last).1

/-- The prices of a run: those that it starts from and those that its calls bring in. -/
def pricesOf (s : PoolState) (calls : List PriceCall) : List Decimal :=
  s.price.oracle :: s.price.last :: calls.filterMap PriceCall.price?

variable {prices : List Decimal} {n : ℕ} {s : PoolState}

/-- Every call, one that is refused included, keeps the oracle enclosed at the cost of a unit. -/
theorem enclosed_after (h : s.price.Enclosed prices n) (call : PriceCall)
    (hcall : ∀ price, call.price? = some price → price ∈ prices) :
    (s.after call).price.Enclosed prices (n + 1) := by
  cases call with
  | move params now =>
    unfold after
    dsimp only
    split
    · next hmove => exact h.moveOracle hmove
    · exact h.succ
  | update params now supply xs last =>
    obtain ⟨t, outcome, hupdate⟩ : ∃ t outcome, s.updatePrice params now supply xs last =
        (t, outcome) := ⟨_, _, rfl⟩
    have hafter : s.after (.update params now supply xs last) = t := congrArg Prod.fst hupdate
    rw [hafter]
    rcases PriceState.oracle_of_update (update_of_updatePrice hupdate) with hsame | hmoved
    · rw [hsame]
      exact h.succ
    · obtain ⟨m, hmove, horacle, -, hlast⟩ := hmoved
      obtain ⟨-, habove, hbelow⟩ := h.moveOracle hmove
      rw [← horacle] at habove hbelow
      refine ⟨?_, habove, hbelow⟩
      rw [hlast]
      exact hcall last rfl

/-- A run of calls keeps the oracle enclosed at the cost of a unit for each. -/
theorem enclosed_run (h : s.price.Enclosed prices n) (calls : List PriceCall)
    (hcalls : ∀ price ∈ calls.filterMap PriceCall.price?, price ∈ prices) :
    (calls.foldl after s).price.Enclosed prices (n + calls.length) := by
  induction calls generalizing s n with
  | nil => exact h
  | cons call calls ih =>
    have hhead : ∀ price, call.price? = some price → price ∈ prices := fun price hprice ↦
      hcalls price (List.mem_filterMap.mpr ⟨call, List.mem_cons_self, hprice⟩)
    have htail : ∀ price ∈ calls.filterMap PriceCall.price?, price ∈ prices := by
      intro price hprice
      obtain ⟨later, hlater, heq⟩ := List.mem_filterMap.mp hprice
      exact hcalls price (List.mem_filterMap.mpr ⟨later, List.mem_cons_of_mem _ hlater, heq⟩)
    have hrun := ih (enclosed_after h call hhead) htail
    rw [List.length_cons]
    rwa [Nat.add_assoc, Nat.add_comm 1] at hrun

/-- The range of the oracle. Up to `10⁴⁰` seconds after its last move, the oracle of every price
state can be moved, and the new one is between the last price and the old one, less one unit of the
last place. Along every run of moves and price updates, at whatever times and with whatever outcome,
it is at most the largest of the prices that the run starts from or that its calls bring in, and at
least the smallest of them, less one unit for each call. -/
theorem oracle_range :
    (∀ (s : PriceState) (params : PoolParams) (now : ℤ), 0 ≤ params.halfTime →
      now - s.updated < 10 ^ 40 →
      ∃ t, s.moveOracle params.halfTime now = .ok t ∧
        min s.last.raw s.oracle.raw ≤ t.oracle.raw + 1 ∧
        t.oracle.raw ≤ max s.last.raw s.oracle.raw) ∧
    ∀ (s : PoolState) (calls : List PriceCall),
      (∃ high ∈ s.pricesOf calls, (calls.foldl after s).price.oracle ≤ high) ∧
      ∃ low ∈ s.pricesOf calls,
        low.raw ≤ (calls.foldl after s).price.oracle.raw + calls.length := by
  constructor
  · intro s params now hhalf hsoon
    obtain ⟨t, ht⟩ := PriceState.exists_moveOracle hhalf hsoon
    exact ⟨t, ht, PriceState.oracle_of_moveOracle ht⟩
  · intro s calls
    have hstart : s.price.Enclosed (s.pricesOf calls) 0 :=
      ⟨by simp [pricesOf], ⟨s.price.oracle, by simp [pricesOf], Nat.le_refl _⟩,
        s.price.oracle, by simp [pricesOf], Nat.le_refl _⟩
    have hrun := enclosed_run hstart calls fun price hprice ↦
      List.mem_cons_of_mem _ (List.mem_cons_of_mem _ hprice)
    rw [Nat.zero_add] at hrun
    exact ⟨hrun.above, hrun.below⟩

/-- The usual pool, one half-life after a trade at the price two. -/
theorem oracle_range_usual :
    ∃ t, PriceState.moveOracle { PriceState.start .one 0 with last := .two }
        Pool.usual.params.halfTime 600 = .ok t ∧ Decimal.one.raw ≤ t.oracle.raw + 1 ∧
      t.oracle.raw ≤ Decimal.two.raw := by
  obtain ⟨t, ht, hbelow, habove⟩ := oracle_range.1 { PriceState.start .one 0 with last := .two }
    Pool.usual.params 600 (by decide) (by decide)
  exact ⟨t, ht, hbelow, habove⟩

end PoolState

end ConcentratedPool
