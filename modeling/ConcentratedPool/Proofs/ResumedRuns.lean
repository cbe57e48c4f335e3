import ConcentratedPool.Proofs.ResultSizes

/-!
# Resumed runs

A simulation can be run again. The pool, the clock and the snapshots go on where the run before has
left them, while the market starts again at the first price of the path, so `k` steps add snapshots
that show the first `k + 1` prices of the path, whatever is traded (`Simulation.adds_runWith`). The
results are valued at the price whose position in the path is the number of snapshots before the
last one. After a first run that is the price of the last snapshot. After several runs
(`Simulation.resume`) it is the price at a later position, or none at all:
`Simulation.results_of_resume` says which one, and that nothing else is missing from the results
where the pool serves the run (`Simulation.Served`).
-/

set_option autoImplicit false
set_option relaxedAutoImplicit false

namespace ConcentratedPool

namespace Simulation

variable {s middle next before : Simulation} {setup : Setup} {trade : Option TradeReceipt}
variable {strategy : Strategy} {price : Float} {k : ℕ} {xs ys : List Float} {steps : Option ℤ}
variable {runs : List (Option ℤ)}

/-! ### What a run adds to the record -/

/-- From one state of a simulation to a later one: the snapshots that were added show these market
prices, and the path and the settings are the same. -/
structure Adds (s next : Simulation) (prices : List Float) : Prop where
  path : next.path = s.path
  settings : next.settings = s.settings
  prices : next.snapshots.map Snapshot.marketPrice =
    s.snapshots.map Snapshot.marketPrice ++ prices

theorem Adds.trans (h : s.Adds middle xs) (h' : middle.Adds next ys) : s.Adds next (xs ++ ys) :=
  ⟨h'.path.trans h.path, h'.settings.trans h.settings, by
    rw [h'.prices, h.prices, List.append_assoc]⟩

theorem Adds.stepCount (h : s.Adds next xs) (steps : Option ℤ) :
    next.stepCount steps = s.stepCount steps := by
  unfold Simulation.stepCount
  rw [h.path, h.settings]

/-- The number of the snapshots that were added. -/
theorem Adds.length (h : s.Adds next xs) :
    next.snapshots.length = s.snapshots.length + xs.length := by
  simpa using congrArg List.length h.prices

theorem adds_seed (h : s.seedLiquidity = .ok next) : s.Adds next [] := by
  by_cases hsupply : s.ledger.supply = 0
  · obtain ⟨_, _, _, -, rfl⟩ := exists_of_seedLiquidity hsupply h
    exact ⟨rfl, rfl, (List.append_nil _).symm⟩
  · rw [seedLiquidity_of_supply hsupply, Except.ok.injEq] at h
    exact h ▸ ⟨rfl, rfl, (List.append_nil _).symm⟩

theorem TradeEnds.adds (h : TradeEnds s trade next) : s.Adds next [] := by
  cases h with
  | kept => exact ⟨rfl, rfl, (List.append_nil _).symm⟩
  | traded => exact ⟨rfl, rfl, (List.append_nil _).symm⟩

theorem adds_record {step : ℕ} (h : s.record step price trade = .ok next) :
    s.Adds next [price] := by
  obtain ⟨_, -, rfl⟩ := record_eq_ok.mp h
  exact ⟨rfl, rfl, by rw [List.map_append, List.map_singleton]⟩

/-- A step shows the price at its position. -/
theorem adds_advance (h : advance strategy s k = .ok next) :
    ∃ price, s.path[k]? = some price ∧ s.Adds next [price] := by
  obtain ⟨price, trade, middle, hprice, htrade, hrecord⟩ := advance_eq_ok.mp h
  have htraded := (tradeEnds_of_trade htrade).adds
  have hadds : s.Adds middle [] := ⟨htraded.path, htraded.settings, htraded.prices⟩
  exact ⟨price, hprice, hadds.trans (adds_record hrecord)⟩

/-- The first steps of a run show the first prices of the path. -/
theorem adds_after (h : s.after strategy k = .ok next) :
    k < s.path.length ∧ s.Adds next (s.path.take (k + 1)) := by
  induction k generalizing next with
  | zero =>
    obtain ⟨seeded, price, hseeded, hprice, hrecord⟩ := after_zero_eq_ok.mp h
    have hadds := adds_seed hseeded
    rw [hadds.path] at hprice
    obtain ⟨hpos, hfirst⟩ := List.getElem?_eq_some_iff.mp hprice
    refine ⟨hpos, ?_⟩
    rw [List.take_add_one, List.take_zero, hprice]
    exact hadds.trans (adds_record hrecord)
  | succ k ih =>
    obtain ⟨middle, hmiddle, hadvance⟩ := after_succ_eq_ok.mp h
    obtain ⟨-, hadds⟩ := ih hmiddle
    obtain ⟨price, hprice, hstep⟩ := adds_advance hadvance
    rw [hadds.path] at hprice
    obtain ⟨hlt, -⟩ := List.getElem?_eq_some_iff.mp hprice
    refine ⟨hlt, ?_⟩
    rw [List.take_add_one, hprice]
    exact hadds.trans hstep

/-- A run shows as many prices of the path as it has steps, and the first one. -/
theorem adds_runWith (h : s.runWith strategy steps = .ok next) :
    s.stepCount steps < s.path.length ∧ s.Adds next (s.path.take (s.stepCount steps + 1)) := by
  rw [runWith_eq_after] at h
  exact adds_after h

/-- The last snapshot after a run shows the price at the position of the last step. -/
theorem exists_getLast_of_runWith (h : s.runWith strategy steps = .ok next) :
    ∃ last, next.snapshots.getLast? = some last ∧
      s.path[s.stepCount steps]? = some last.marketPrice := by
  obtain ⟨hlt, hadds⟩ := adds_runWith h
  have hprice := List.getElem?_eq_getElem hlt
  have hlast : (next.snapshots.map Snapshot.marketPrice).getLast? =
      some s.path[s.stepCount steps] := by
    rw [hadds.prices, List.take_add_one, hprice, Option.toList_some, ← List.append_assoc,
      List.getLast?_append_of_ne_nil _ (List.cons_ne_nil _ _), List.getLast?_singleton]
  rw [List.getLast?_map, Option.map_eq_some_iff] at hlast
  obtain ⟨last, hfound, hshown⟩ := hlast
  exact ⟨last, hfound, by rw [hprice, hshown]⟩

/-! ### Runs that the pool serves -/

/-- The strategy comes to a choice, a trade that it chooses is carried out or refused for its spread,
and the share has a price after it. -/
def StepServed (strategy : Strategy) (s : Simulation) (price : Float) : Prop :=
  ∃ trade next, { s with now := s.now + s.settings.stepSeconds }.trade strategy price =
      .ok (trade, next) ∧ ∃ value, next.ledger.pool.sharePrice = .ok value

/-- Nothing is refused that a run and its results ask the pool for. -/
structure Served (strategy : Strategy) (steps : Option ℤ) (s : Simulation) : Prop where
  start : ∃ seeded value, s.seedLiquidity = .ok seeded ∧
    seeded.ledger.pool.sharePrice = .ok value
  step : ∀ k < s.stepCount steps, ∀ middle price, s.after strategy k = .ok middle →
    s.path[k + 1]? = some price → StepServed strategy middle price
  payout : ∀ next, s.runWith strategy steps = .ok next → ∃ result, next.payout = .ok result

/-- A run never leaves a path that has a first price. -/
theorem stepCount_lt (hpath : s.path ≠ []) (steps : Option ℤ) :
    s.stepCount steps < s.path.length := by
  have hpos := List.length_pos_iff.mpr hpath
  have hcount := s.natCast_stepCount steps
  omega

/-- The path has a price for every step that is counted, and each of them is served. -/
theorem exists_after (hpath : s.path ≠ []) (h : s.Served strategy steps)
    (hk : k ≤ s.stepCount steps) : ∃ next, s.after strategy k = .ok next := by
  obtain ⟨price, hprice⟩ : ∃ price, s.path[k]? = some price :=
    ⟨_, List.getElem?_eq_getElem (Nat.lt_of_le_of_lt hk (stepCount_lt hpath steps))⟩
  induction k generalizing price with
  | zero =>
    obtain ⟨seeded, value, hseeded, hvalue⟩ := h.start
    rw [← (adds_seed hseeded).path] at hprice
    exact ⟨_, after_zero_eq_ok.mpr ⟨seeded, price, hseeded, hprice,
      record_eq_ok.mpr ⟨value, hvalue, rfl⟩⟩⟩
  | succ k ih =>
    have hbefore : k < s.stepCount steps := Nat.lt_of_succ_le hk
    obtain ⟨middle, hmiddle⟩ := ih hbefore.le _
      (List.getElem?_eq_getElem (hbefore.trans (stepCount_lt hpath steps)))
    obtain ⟨trade, traded, htrade, value, hvalue⟩ := h.step k hbefore middle price hmiddle hprice
    rw [← (adds_after hmiddle).2.path] at hprice
    exact ⟨_, after_succ_eq_ok.mpr ⟨middle, hmiddle, advance_eq_ok.mpr
      ⟨price, trade, traded, hprice, htrade, record_eq_ok.mpr ⟨value, hvalue, rfl⟩⟩⟩⟩

/-- A run that is served comes to its end. -/
theorem exists_runWith (hpath : s.path ≠ []) (h : s.Served strategy steps) :
    ∃ next, s.runWith strategy steps = .ok next := by
  rw [runWith_eq_after]
  exact exists_after hpath h (Nat.le_refl _)

/-- A run that came to its end was served, if the shares can be paid out then. -/
theorem served_of_runWith {result : Pair ℕ × Pool} (h : s.runWith strategy steps = .ok next)
    (hpayout : next.payout = .ok result) : s.Served strategy steps := by
  have hafter := h
  rw [runWith_eq_after] at hafter
  refine ⟨?_, fun k hk middle price hmiddle hprice ↦ ?_, fun other hother ↦ ?_⟩
  · obtain ⟨first, hfirst⟩ := exists_after_of_le (Nat.zero_le _) hafter
    obtain ⟨seeded, price, hseeded, -, hrecord⟩ := after_zero_eq_ok.mp hfirst
    obtain ⟨value, hvalue, -⟩ := record_eq_ok.mp hrecord
    exact ⟨seeded, value, hseeded, hvalue⟩
  · obtain ⟨last, hlast⟩ := exists_after_of_le (Nat.succ_le_of_lt hk) hafter
    obtain ⟨found, hfound, hadvance⟩ := after_succ_eq_ok.mp hlast
    obtain rfl : middle = found := Except.ok.inj (hmiddle.symm.trans hfound)
    obtain ⟨shown, trade, traded, hshown, htrade, hrecord⟩ := advance_eq_ok.mp hadvance
    rw [(adds_after hmiddle).2.path, hprice, Option.some.injEq] at hshown
    subst hshown
    obtain ⟨value, hvalue, -⟩ := record_eq_ok.mp hrecord
    exact ⟨trade, traded, htrade, value, hvalue⟩
  · obtain rfl : next = other := Except.ok.inj (h.symm.trans hother)
    exact ⟨result, hpayout⟩

/-! ### Several runs -/

/-- The simulation after several runs in which its own trader trades, one after the other. Whether
the results of a run can be computed makes no difference to those after it. -/
def resume (runs : List (Option ℤ)) (s : Simulation) : Except Fault Simulation :=
  runs.foldlM (fun s steps ↦ s.runWith s.arbitrageur.findTrade steps) s

theorem resume_cons_eq_ok :
    s.resume (steps :: runs) = .ok next ↔
      ∃ middle, s.runWith s.arbitrageur.findTrade steps = .ok middle ∧
        middle.resume runs = .ok next := by
  simp only [resume, List.foldlM_cons, bind_eq_ok]

theorem resume_concat (h : s.resume runs = .ok before)
    (hnext : before.runWith before.arbitrageur.findTrade steps = .ok next) :
    s.resume (runs ++ [steps]) = .ok next := by
  unfold resume at h ⊢
  rw [List.foldlM_append, h, ok_bind, List.foldlM_cons, hnext]
  rfl

/-- Every one of several runs starts again at the first price of the path. -/
theorem adds_resume (h : s.resume runs = .ok next) :
    s.Adds next (runs.flatMap fun steps ↦ s.path.take (s.stepCount steps + 1)) := by
  induction runs generalizing s with
  | nil =>
    obtain rfl := pure_eq_ok.mp h
    exact ⟨rfl, rfl, (List.append_nil _).symm⟩
  | cons steps runs ih =>
    obtain ⟨middle, hmiddle, hrest⟩ := resume_cons_eq_ok.mp h
    obtain ⟨-, hadds⟩ := adds_runWith hmiddle
    have hlater := ih hrest
    simp only [hadds.stepCount, hadds.path] at hlater
    exact hadds.trans hlater

/-- Each of several runs adds a snapshot for every step, and one before them. -/
theorem length_of_resume (hpath : s.path ≠ []) (h : s.resume runs = .ok next) :
    next.snapshots.length =
      s.snapshots.length + (runs.map fun steps ↦ s.stepCount steps + 1).sum := by
  have htake (steps : Option ℤ) :
      (s.path.take (s.stepCount steps + 1)).length = s.stepCount steps + 1 :=
    List.length_take_of_le (stepCount_lt hpath steps)
  rw [(adds_resume h).length, List.length_flatMap]
  simp only [htake]

/-- A run adds no more fees than snapshots. -/
theorem sized_runWith (hs : s.Sized s.snapshots.length)
    (h : s.runWith strategy steps = .ok next) : next.Sized next.snapshots.length := by
  obtain ⟨hlt, hadds⟩ := adds_runWith h
  have hlength := hadds.length
  rw [List.length_take_of_le hlt] at hlength
  rw [runWith_eq_after] at h
  exact (sized_after hs h).mono (by omega)

/-- Nor do several runs. -/
theorem sized_resume (hs : s.Sized s.snapshots.length) (h : s.resume runs = .ok next) :
    next.Sized next.snapshots.length := by
  induction runs generalizing s with
  | nil =>
    obtain rfl := pure_eq_ok.mp h
    exact hs
  | cons steps runs ih =>
    obtain ⟨middle, hmiddle, hrest⟩ := resume_cons_eq_ok.mp h
    exact ih (sized_runWith hs hmiddle) hrest

/-- A call returns results, and everything in them is valued at a price. -/
def Returns (s : Simulation) (steps : Option ℤ) (next : Simulation) (price : Float) : Prop :=
  ∃ o rows, s.run steps = .ok (o, next) ∧ next.rows = .ok rows ∧ next.ValuedAt o price

/-- The results of a call are the outcome of its run. -/
theorem run_eq_ok {o : Outcome} :
    s.run steps = .ok (o, next) ↔
      s.runWith s.arbitrageur.findTrade steps = .ok next ∧ next.outcome = .ok o := by
  simp only [run, bind_eq_ok, pure_eq_ok, Prod.mk.injEq]
  constructor
  · rintro ⟨_, hrun, _, houtcome, rfl, rfl⟩
    exact ⟨hrun, houtcome⟩
  · rintro ⟨hrun, houtcome⟩
    exact ⟨next, hrun, o, houtcome, rfl, rfl⟩

/-- There are results where there is a price to value them at. -/
theorem returns_of_price (hs : next.Sized next.snapshots.length)
    (hlength : next.path.length ≤ 2 ^ 64)
    (hrun : s.runWith s.arbitrageur.findTrade steps = .ok next) {result : Pair ℕ × Pool}
    (hpayout : next.payout = .ok result)
    (hprice : next.path[next.snapshots.length - 1]? = some price) : s.Returns steps next price := by
  obtain ⟨hlt, -⟩ := List.getElem?_eq_some_iff.mp hprice
  obtain ⟨o, houtcome, hvalued⟩ := exists_outcome hs (by omega) hpayout hprice
  obtain ⟨rows, hrows⟩ := exists_rows hs
  exact ⟨o, rows, run_eq_ok.mpr ⟨hrun, houtcome⟩, hrows, hvalued⟩

/-- There are no results where the snapshots are more than the prices of the path. -/
theorem run_of_path_le (hrun : s.runWith s.arbitrageur.findTrade steps = .ok next)
    (h : next.path.length ≤ next.snapshots.length - 1) : s.run steps = .error .missingEntry := by
  have hprice : next.priceAt (next.snapshots.length - 1) = .error .missingEntry := by
    rw [priceAt, List.getElem?_eq_none h]
  simp only [run, outcome, hrun, hprice, ok_bind]
  rfl

/-- The results of a run that follows others. Let a new simulation go along a path, its own or any
other, through some runs and then one more, in which the pool refuses nothing. That run comes to its
end, and its last snapshot shows the price at the position of its last step. Its results are valued
at the price whose position is the number of all snapshots before the last one, those of the earlier
runs among them; where the path ends before that there are none. A run with none before it does have
results, valued at the price of the last snapshot. -/
theorem results_of_resume {source : NormalSource} (hcreate : create setup source = .ok s)
    {path : List Float} (hpath : path ≠ []) (hlength : path.length ≤ 2 ^ 64)
    (hbefore : { s with path }.resume runs = .ok before)
    (hserved : before.Served before.arbitrageur.findTrade steps) :
    ∃ next last, before.runWith before.arbitrageur.findTrade steps = .ok next ∧
      next.snapshots.getLast? = some last ∧
      path[before.stepCount steps]? = some last.marketPrice ∧
      next.snapshots.length = ((runs ++ [steps]).map fun r ↦ before.stepCount r + 1).sum ∧
      (∀ price, path[next.snapshots.length - 1]? = some price → before.Returns steps next price) ∧
      (path.length < next.snapshots.length → before.run steps = .error .missingEntry) ∧
      (runs = [] → before.Returns steps next last.marketPrice) := by
  have hsame := adds_resume hbefore
  obtain ⟨next, hnext⟩ := exists_runWith (by rwa [hsame.path]) hserved
  obtain ⟨result, hpayout⟩ := hserved.payout next hnext
  obtain ⟨last, hlast, hshown⟩ := exists_getLast_of_runWith hnext
  have hall := resume_concat hbefore hnext
  have hfinal : next.path = path := (adds_resume hall).path
  rw [show before.path = path from hsame.path] at hshown
  have hcount : next.snapshots.length =
      ((runs ++ [steps]).map fun r ↦ before.stepCount r + 1).sum := by
    have hempty : { s with path }.snapshots = [] := (fresh_of_create hcreate).1.snapshots
    simp only [hsame.stepCount]
    rw [length_of_resume hpath hall, hempty, List.length_nil, Nat.zero_add]
  have hreturns (price : Float) (hprice : path[next.snapshots.length - 1]? = some price) :
      before.Returns steps next price := by
    have hsized := sized_resume (((sized_of_create hcreate).along path).mono (Nat.zero_le _)) hall
    refine returns_of_price hsized ?_ hnext hpayout ?_
    · rwa [hfinal]
    · rwa [hfinal]
  refine ⟨next, last, hnext, hlast, hshown, hcount, hreturns, fun hbeyond ↦ ?_, fun hfirst ↦ ?_⟩
  · refine run_of_path_le hnext ?_
    rw [hfinal]
    omega
  · subst hfirst
    refine hreturns _ ?_
    rw [hcount]
    simpa using hshown

/-- A market that stands still and then goes up by one half, at the third step. -/
def shockedPath : List Float := [1.0, 1.0, 1.0, 1.5]

/-- Two runs of one step: the second one ends at the price `1`, and its results are valued at the
price `1.5` of a step that no run has come to. -/
theorem results_of_resume_shocked :
    ∃ s before next last, create (.ofSettings stillSettings) 0 = .ok s ∧
      { s with path := shockedPath }.resume [some 1] = .ok before ∧
      before.Served before.arbitrageur.findTrade (some 1) ∧
      next.snapshots.getLast? = some last ∧ last.marketPrice = 1.0 ∧
      before.Returns (some 1) next 1.5 := by
  obtain ⟨⟨s, before, next, result⟩, hcalls, hcount⟩ := exists_of_any
    (do let s ← create (.ofSettings stillSettings) 0
        let before ← { s with path := shockedPath }.resume [some 1]
        let next ← before.runWith before.arbitrageur.findTrade (some 1)
        return (s, before, next, ← next.payout))
    (fun calls ↦ calls.2.1.stepCount (some 1) = 1) (by decide +kernel)
  simp only [bind_eq_ok, pure_eq_ok, Prod.mk.injEq] at hcalls
  obtain ⟨s, hcreate, before, hbefore, next, hnext, result, hpayout, rfl, rfl, rfl, rfl⟩ := hcalls
  have hone : before.stepCount (some 1) = 1 := of_decide_eq_true hcount
  have hserved := served_of_runWith hnext hpayout
  obtain ⟨ended, last, hend, hlast, hshown, hlength, hreturns, -⟩ :=
    results_of_resume hcreate (List.cons_ne_nil _ _) (by decide) hbefore hserved
  obtain rfl : next = ended := Except.ok.inj (hnext.symm.trans hend)
  have hfour : next.snapshots.length = 4 := by simpa [hone] using hlength
  rw [hone] at hshown
  refine ⟨s, before, next, last, hcreate, hbefore, hserved, hlast,
    (Option.some.inj hshown).symm, hreturns _ ?_⟩
  rw [hfour]
  rfl

/-- The values of that second run are not those at the price of its last snapshot, and a third run
has no results at all. -/
theorem resumed_values_differ :
    ∃ s before next last o, create (.ofSettings stillSettings) 0 = .ok s ∧
      { s with path := shockedPath }.resume [some 1] = .ok before ∧
      before.run (some 1) = .ok (o, next) ∧ next.snapshots.getLast? = some last ∧
      next.valueOf (o.refunds.map Int.ofNat) last.marketPrice ≠ .ok o.withdrawValue ∧
      next.valueOf next.initialDeposit last.marketPrice ≠ .ok o.holdValue ∧
      next.run (some 1) = .error .missingEntry := by
  obtain ⟨⟨s, before, second, third, withdrawn, held⟩, hcalls, htests⟩ := exists_of_any
    (do let s ← create (.ofSettings stillSettings) 0
        let before ← { s with path := shockedPath }.resume [some 1]
        let second ← before.run (some 1)
        let third ← second.2.runWith second.2.arbitrageur.findTrade (some 1)
        let withdrawn ← second.2.valueOf (second.1.refunds.map Int.ofNat) 1.0
        let held ← second.2.valueOf second.2.initialDeposit 1.0
        return (s, before, second, third, withdrawn, held))
    (fun calls ↦ calls.2.1.path[calls.2.1.stepCount (some 1)]? = some 1.0 ∧
      calls.2.2.2.2.1 ≠ calls.2.2.1.1.withdrawValue ∧
      calls.2.2.2.2.2 ≠ calls.2.2.1.1.holdValue ∧
      calls.2.2.2.1.path.length ≤ calls.2.2.2.1.snapshots.length - 1) (by decide +kernel)
  simp only [bind_eq_ok, pure_eq_ok, Prod.exists, Prod.mk.injEq] at hcalls
  obtain ⟨s, hcreate, before, hbefore, o, next, hrun, third, hthird, withdrawn, hwithdrawn, held,
    hheld, rfl, rfl, rfl, rfl, rfl, rfl⟩ := hcalls
  obtain ⟨hprice, hlessWithdrawn, hlessHeld, hbeyond⟩ := of_decide_eq_true htests
  obtain ⟨last, hlast, hshown⟩ := exists_getLast_of_runWith (run_eq_ok.mp hrun).1
  have hone : last.marketPrice = 1.0 := Option.some.inj (hshown.symm.trans hprice)
  refine ⟨s, before, next, last, o, hcreate, hbefore, hrun, hlast, ?_, ?_,
    run_of_path_le hthird hbeyond⟩
  · rw [hone, hwithdrawn]
    exact fun h ↦ hlessWithdrawn (Except.ok.inj h)
  · rw [hone, hheld]
    exact fun h ↦ hlessHeld (Except.ok.inj h)

end Simulation

end ConcentratedPool
