import ConcentratedPool.Proofs.LedgerSolvency

/-!
# Accumulated prices

A pool adds up, for both directions of a trade, the price times the seconds for which it stands. It
is told of prices by `Observation`s, which may come late or twice. The clock of the pool is the
latest time that it was told of, and an observation accounts for the seconds by which it moves the
clock, possibly none (`Observation.intervals`). So every second counts exactly once, with the price
of the observation that first passes it: `Pool.accumulateEach_eq` is the value of both accumulated
prices after any number of observations, modulo `2¹²⁸`, and `Pool.accumulateEach_insert` that a
second look at the same price changes nothing.
-/

set_option autoImplicit false
set_option relaxedAutoImplicit false

namespace ConcentratedPool

/-- A price, in base per quote, that is seen at a time. -/
structure Observation where
  time : ℤ
  price : Decimal

namespace Observation

/-- The latest of `t` and the times of the observations. -/
def latest (t : ℤ) (seen : List Observation) : ℤ := (seen.map Observation.time).foldl max t

/-- The seconds that each observation accounts for, with the clock at `t`: those by which it is
later than the clock. -/
def intervals (t : ℤ) : List Observation → List ℕ
  | [] => []
  | o :: rest => (o.time - t).toNat :: intervals (max t o.time) rest

/-- The price of the asset on a side in millionths of the other one, rounded down. That of the base
asset is the reciprocal, which is rounded down to eighteen places before. -/
def millionths (o : Observation) : Side → ℕ
  | .base => Decimal.scale * Decimal.scale / o.price.raw / 10 ^ 12
  | .quote => o.price.raw / 10 ^ 12

/-- The price times the seconds for which it stands, summed over the observations. -/
def weighted (t : ℤ) (seen : List Observation) (side : Side) : ℕ :=
  ((intervals t seen).zipWith (fun elapsed o ↦ elapsed * o.millionths side) seen).sum

variable {t : ℤ} {o : Observation} {seen : List Observation}

@[simp] theorem latest_nil : latest t [] = t := rfl

@[simp] theorem latest_cons : latest t (o :: seen) = latest (max t o.time) seen := rfl

@[simp] theorem weighted_nil (side : Side) : weighted t [] side = 0 := rfl

@[simp] theorem weighted_cons (side : Side) : weighted t (o :: seen) side =
    (o.time - t).toNat * o.millionths side + weighted (max t o.time) seen side := by
  simp [weighted, intervals]

/-- The intervals add up to what the clock moves. -/
theorem sum_intervals (t : ℤ) (seen : List Observation) :
    ((intervals t seen).sum : ℤ) = latest t seen - t := by
  -- The clock moves with every observation, so `t` is generalized.
  induction seen generalizing t with
  | nil => simp [intervals]
  | cons o rest ih =>
    rw [intervals, List.sum_cons, Nat.cast_add, ih, latest_cons]
    omega

end Observation

/-- A positive price has a reciprocal. -/
theorem Decimal.exists_inv {a : Decimal} (ha : 0 < a.raw) :
    ∃ b, a.inv = .ok b ∧ b.raw = Decimal.scale * Decimal.scale / a.raw := by
  have hle : Decimal.scale * Decimal.scale / a.raw ≤ Decimal.maxRaw :=
    (Nat.div_le_self _ _).trans (by decide)
  exact ⟨⟨_, hle⟩, Decimal.div_eq_ok.mpr ⟨ha.ne', rfl⟩, rfl⟩

namespace Pool

variable {p : Pool} {now : ℤ} {price : Decimal}

/-! ### One observation -/

/-- An observation that is not later than the clock changes nothing. -/
theorem accumulate_of_le (h : now ≤ p.accumulated) : p.accumulate now price = .ok p := by
  unfold accumulate
  rw [if_pos h]
  rfl

/-- An observation of a positive price moves the clock, if it is later, and adds the price for the
seconds between. -/
theorem accumulate_eq {o : Observation} (hprice : 0 < o.price.raw)
    (hbelow : ∀ side, p.cumulative.get side < Limits.cumulativeModulus) :
    ∃ next, p.accumulate o.time o.price = .ok next ∧
      next = { p with
        accumulated := max p.accumulated o.time
        cumulative := next.cumulative } ∧
      ∀ side, next.cumulative.get side = (p.cumulative.get side +
        (o.time - p.accumulated).toNat * o.millionths side) % Limits.cumulativeModulus := by
  by_cases hlate : o.time ≤ p.accumulated
  · refine ⟨p, accumulate_of_le hlate, ?_, fun side ↦ ?_⟩
    · rw [max_eq_left hlate]
    · rw [Int.toNat_of_nonpos (sub_nonpos.mpr hlate), Nat.zero_mul, Nat.add_zero,
        Nat.mod_eq_of_lt (hbelow side)]
  · obtain ⟨reciprocal, hreciprocal, hraw⟩ := Decimal.exists_inv hprice
    have htokens : ∀ a : Decimal, a.toTokens Limits.cumulativePrecision = .ok (a.raw / 10 ^ 12) :=
      fun a ↦ Decimal.toTokens_eq_ok.mpr ⟨by decide, rfl⟩
    unfold accumulate
    rw [if_neg hlate, hreciprocal]
    simp only [ok_bind, htokens]
    refine ⟨_, rfl, ?_, fun side ↦ ?_⟩
    · rw [max_eq_right (not_le.mp hlate).le]
    · cases side with
      | base => simp only [Pair.get, Observation.millionths, hraw]
      | quote => rfl

/-- A price of zero is refused as soon as it would count. -/
theorem accumulate_zero (h : p.accumulated < now) :
    p.accumulate now .zero = .error (.arithmetic .divisionByZero) := by
  unfold accumulate
  rw [if_neg (not_le.mpr h)]
  rfl

/-- What a second accumulation at the same price adds comes to the same as one over both times. -/
theorem mod_add_add_mul (value e e' r m : ℕ) :
    ((value + e * r) % m + e' * r) % m = (value + (e + e') * r) % m := by
  rw [Nat.mod_add_mod, Nat.add_assoc, ← Nat.add_mul]

/-- A look at a price before the observation of it changes nothing. -/
theorem accumulate_twice {mid : ℤ} {o : Observation} (hmid : mid ≤ o.time)
    (hprice : 0 < o.price.raw)
    (hbelow : ∀ side, p.cumulative.get side < Limits.cumulativeModulus) :
    ∃ q, p.accumulate mid o.price = .ok q ∧ q.accumulated = max p.accumulated mid ∧
      q.accumulate o.time o.price = p.accumulate o.time o.price := by
  obtain ⟨q, hq, hframe, hvalues⟩ := accumulate_eq (p := p) (o := ⟨mid, o.price⟩) hprice hbelow
  have hclock : q.accumulated = max p.accumulated mid := by rw [hframe]
  have hbelowMid : ∀ side, q.cumulative.get side < Limits.cumulativeModulus := by
    intro side
    rw [hvalues side]
    exact Nat.mod_lt _ (by decide)
  obtain ⟨once, honce, honceFrame, honceValues⟩ := accumulate_eq hprice hbelow
  obtain ⟨twice, htwice, htwiceFrame, htwiceValues⟩ := accumulate_eq hprice hbelowMid
  refine ⟨q, hq, hclock, ?_⟩
  rw [honce, htwice]
  have hcumulative : twice.cumulative = once.cumulative := by
    have hside : ∀ side, twice.cumulative.get side = once.cumulative.get side := by
      intro side
      have hsame : (⟨mid, o.price⟩ : Observation).millionths side = o.millionths side := by
        cases side <;> rfl
      rw [htwiceValues, honceValues, hvalues, hsame, mod_add_add_mul, hclock]
      congr 3
      dsimp only
      omega
    exact Pair.ext (hside .base) (hside .quote)
  rw [htwiceFrame, honceFrame, hframe, hcumulative]
  dsimp only
  rw [max_assoc, max_eq_right hmid]

/-! ### Many observations -/

/-- Accumulates the prices of several observations in their order; all of it is refused if one
is. -/
def accumulateEach (p : Pool) (seen : List Observation) : Except Fault Pool :=
  seen.foldlM (fun p o ↦ p.accumulate o.time o.price) p

theorem accumulateEach_nil : p.accumulateEach [] = .ok p := rfl

theorem accumulateEach_cons (o : Observation) (seen : List Observation) :
    p.accumulateEach (o :: seen) = p.accumulate o.time o.price >>= (·.accumulateEach seen) :=
  List.foldlM_cons

theorem accumulateEach_append (seen later : List Observation) :
    p.accumulateEach (seen ++ later) = p.accumulateEach seen >>= (·.accumulateEach later) :=
  List.foldlM_append

/-- Observations of positive prices are never refused. They move the clock to the latest time, add
to both accumulated prices what they are worth modulo `2¹²⁸`, and change nothing else. -/
theorem accumulateEach_eq {seen : List Observation} (hprices : ∀ o ∈ seen, 0 < o.price.raw)
    (hbelow : ∀ side, p.cumulative.get side < Limits.cumulativeModulus) :
    ∃ next, p.accumulateEach seen = .ok next ∧
      next = { p with
        accumulated := Observation.latest p.accumulated seen
        cumulative := next.cumulative } ∧
      ∀ side, next.cumulative.get side = (p.cumulative.get side +
        Observation.weighted p.accumulated seen side) % Limits.cumulativeModulus := by
  -- The pool that the first observation leaves is the one that the others find.
  induction seen generalizing p with
  | nil =>
    refine ⟨p, accumulateEach_nil, rfl, fun side ↦ ?_⟩
    rw [Observation.weighted_nil, Nat.add_zero, Nat.mod_eq_of_lt (hbelow side)]
  | cons o rest ih =>
    obtain ⟨mid, hmid, hframe, hvalues⟩ := accumulate_eq (hprices o (by simp)) hbelow
    have hbelowMid : ∀ side, mid.cumulative.get side < Limits.cumulativeModulus := by
      intro side
      rw [hvalues side]
      exact Nat.mod_lt _ (by decide)
    obtain ⟨next, hnext, hnextFrame, hnextValues⟩ :=
      ih (fun o' ho' ↦ hprices o' (by simp [ho'])) hbelowMid
    have hclock : mid.accumulated = max p.accumulated o.time := by rw [hframe]
    refine ⟨next, ?_, ?_, fun side ↦ ?_⟩
    · rw [accumulateEach_cons, hmid, ok_bind, hnext]
    · rw [hnextFrame, hframe]
      rfl
    · rw [hnextValues, hvalues, Nat.mod_add_mod, hclock, Observation.weighted_cons, Nat.add_assoc]

/-- Observations that are not later than the clock change nothing. -/
theorem accumulateEach_of_le {seen : List Observation} (h : ∀ o ∈ seen, o.time ≤ p.accumulated) :
    p.accumulateEach seen = .ok p := by
  induction seen with
  | nil => exact accumulateEach_nil
  | cons o rest ih =>
    rw [accumulateEach_cons, accumulate_of_le (h o (by simp)), ok_bind]
    exact ih fun o' ho' ↦ h o' (by simp [ho'])

/-- A look at the price of the next observation that counts, at a time up to it, changes nothing.
The observations `stale` between the two do not count. -/
theorem accumulateEach_insert {before stale after : List Observation} {o : Observation} {mid : ℤ}
    (hbefore : ∀ o ∈ before, 0 < o.price.raw) (hprice : 0 < o.price.raw)
    (hstale : ∀ s ∈ stale, s.time ≤ Observation.latest p.accumulated before)
    (hmid : mid ≤ o.time)
    (hbelow : ∀ side, p.cumulative.get side < Limits.cumulativeModulus) :
    p.accumulateEach (before ++ ⟨mid, o.price⟩ :: (stale ++ o :: after)) =
      p.accumulateEach (before ++ (stale ++ o :: after)) := by
  obtain ⟨found, hfound, hframe, hvalues⟩ := accumulateEach_eq hbefore hbelow
  have hclock : found.accumulated = Observation.latest p.accumulated before := by rw [hframe]
  have hbelowFound : ∀ side, found.cumulative.get side < Limits.cumulativeModulus := by
    intro side
    rw [hvalues side]
    exact Nat.mod_lt _ (by decide)
  obtain ⟨looked, hlooked, hlookedClock, hsame⟩ := accumulate_twice hmid hprice hbelowFound
  have hstaleFound : found.accumulateEach stale = .ok found :=
    accumulateEach_of_le fun s hs ↦ by
      rw [hclock]
      exact hstale s hs
  have hstaleLooked : looked.accumulateEach stale = .ok looked :=
    accumulateEach_of_le fun s hs ↦ by
      rw [hlookedClock, hclock]
      exact le_max_of_le_left (hstale s hs)
  rw [accumulateEach_append, accumulateEach_append, hfound, ok_bind, ok_bind, accumulateEach_cons,
    hlooked, ok_bind, accumulateEach_append, accumulateEach_append, hstaleFound, hstaleLooked,
    ok_bind, ok_bind, accumulateEach_cons, accumulateEach_cons, hsame]

end Pool

namespace Ledger

/-- Accumulated prices count every second exactly once. In every state `l` that a pool can reach
from its creation, observations of positive prices are carried out, in any order of their times: the
clock moves to the latest time, the intervals add up to what it moves, and each accumulated price
grows by the price times the seconds for which it stands, modulo `2¹²⁸`. A look at the price of the
next observation that counts, at a time up to it, changes nothing. A price of zero at a later time
is refused and leaves the ledger as it is. -/
theorem seconds_count_once {sources : List AssetSource} {initial : InitialParams} {start : ℤ}
    {token : String} {created : Pool} {calls : List Call} {l : Ledger}
    (h : Pool.create sources initial start token = .ok created)
    (hl : l = (ofPool created).run calls) :
    (∀ seen : List Observation, (∀ o ∈ seen, 0 < o.price.raw) →
      ∃ next, l.pool.accumulateEach seen = .ok next ∧
        next = { l.pool with accumulated := next.accumulated, cumulative := next.cumulative } ∧
        next.accumulated = (seen.map Observation.time).foldl max l.pool.accumulated ∧
        ((Observation.intervals l.pool.accumulated seen).sum : ℤ) =
          next.accumulated - l.pool.accumulated ∧
        ∀ side, next.cumulative.get side = (l.pool.cumulative.get side +
          Observation.weighted l.pool.accumulated seen side) % 2 ^ 128) ∧
    (∀ (before stale after : List Observation) (o : Observation) (mid : ℤ),
      (∀ o' ∈ before, 0 < o'.price.raw) → 0 < o.price.raw →
      (∀ s ∈ stale, s.time ≤ Observation.latest l.pool.accumulated before) → mid ≤ o.time →
      l.pool.accumulateEach (before ++ ⟨mid, o.price⟩ :: (stale ++ o :: after)) =
        l.pool.accumulateEach (before ++ (stale ++ o :: after))) ∧
    ∀ now, l.pool.accumulated < now →
      l.pool.accumulate now .zero = .error (.arithmetic .divisionByZero) ∧
        l.step (.accumulate now .zero) = l := by
  have hbelow : ∀ side, l.pool.cumulative.get side < Limits.cumulativeModulus := by
    rw [hl]
    exact (wellFormed_of_create h calls).1.pool.cumulative
  refine ⟨fun seen hprices ↦ ?_, fun before stale after o mid hbefore hprice hstale hmid ↦
    Pool.accumulateEach_insert hbefore hprice hstale hmid hbelow, fun now hlate ↦ ?_⟩
  · obtain ⟨next, hnext, hframe, hvalues⟩ := Pool.accumulateEach_eq hprices hbelow
    have hclock : next.accumulated = Observation.latest l.pool.accumulated seen := by rw [hframe]
    refine ⟨next, hnext, ?_, hclock, ?_, hvalues⟩
    · rw [hclock]
      exact hframe
    · rw [hclock]
      exact Observation.sum_intervals _ _
  · have hrefused := Pool.accumulate_zero hlate
    refine ⟨hrefused, ?_⟩
    simp only [step, apply, hrefused]
    rfl

/-- A hundred seconds at the price two and two hundred at the price three on the usual pool, where
neither the late observation at time 40 nor the look at time 160 changes anything. -/
theorem seconds_count_once_usual :
    Pool.create [.known ⟨"uusd", 6⟩, .known ⟨"uluna", 6⟩] Pool.usualParams 0 "shares" =
        .ok Pool.usual ∧
      (∃ next, Pool.usual.accumulateEach [⟨100, .two⟩, ⟨40, .ten⟩, ⟨300, .three⟩] = .ok next ∧
        next.accumulated = 300 ∧ next.cumulative = ⟨100 * 500_000 + 200 * 333_333,
          100 * 2_000_000 + 200 * 3_000_000⟩) ∧
      Pool.usual.accumulateEach [⟨100, .two⟩, ⟨160, .three⟩, ⟨40, .ten⟩, ⟨300, .three⟩] =
        Pool.usual.accumulateEach [⟨100, .two⟩, ⟨40, .ten⟩, ⟨300, .three⟩] ∧
      (ofPool Pool.usual).step (.accumulate 1 .zero) = ofPool Pool.usual := by
  have hfresh : ofPool Pool.usual = (ofPool Pool.usual).run [] := rfl
  obtain ⟨hrun, hinsert, hzero⟩ := seconds_count_once Pool.create_usual hfresh
  obtain ⟨next, hnext, -, hclock, -, hvalues⟩ :=
    hrun [⟨100, .two⟩, ⟨40, .ten⟩, ⟨300, .three⟩] (by decide)
  refine ⟨Pool.create_usual, ⟨next, hnext, hclock, Pair.ext ?_ ?_⟩, ?_, (hzero 1 (by decide)).2⟩
  · exact hvalues .base
  · exact hvalues .quote
  · exact hinsert [⟨100, .two⟩] [⟨40, .ten⟩] [] ⟨300, .three⟩ 160 (by decide) (by decide)
      (by decide) (by decide)

end Ledger

end ConcentratedPool
