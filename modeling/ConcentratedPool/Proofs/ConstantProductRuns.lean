import ConcentratedPool.Proofs.CheckedArithmetic
import ConcentratedPool.Quote.ConstantProduct
import Mathlib.Tactic.Ring

/-!
# Runs of swaps at a constant product

A swap pays at most the part of the asked balance that the offer is of the offer balance after it
(`output_mul_le_of_quoteSwap`): the product and the quotient are rounded down, and the fee only
takes away. What is left of the asked balance, times the larger offer balance, is then at least the
product before (`product_le_book`), at every fee rate and every size of the three numbers.

`swap` prices a swap and books it, and `swapEach` does so with one order after another. No swap that
is priced is refused when it is booked (`exists_book`), a run of any length keeps both balances
positive and never lowers their product, and an output that is swapped straight back gives at most
the offer (`product_le_of_swapEach`).
-/

set_option autoImplicit false
set_option relaxedAutoImplicit false

namespace ConcentratedPool.ConstantProduct

variable {pools left : Pair Decimal} {side : Side} {offer rate : Decimal} {q : SwapQuote}

/-! ### Booking a swap -/

/-- The balances after a swap: the offer is added on its side and the output leaves the other. -/
def book (pools : Pair Decimal) (side : Side) (offer output : Decimal) :
    Except Fault (Pair Decimal) := do
  let paid ← pools.get side + offer
  let rest ← pools.get side.other - output
  return (pools.set side paid).set side.other rest

/-- A swap that someone asks for. -/
structure Order where
  /-- The side of the offer. -/
  side : Side
  offer : Decimal
  /-- The fee rate. -/
  rate : Decimal

/-- Prices a swap and books it. -/
def swap (pools : Pair Decimal) (o : Order) : Except Fault (Pair Decimal) := do
  let q ← quoteSwap pools o.side o.offer o.rate
  book pools o.side o.offer q.output

/-- Swaps one order after another. -/
def swapEach (pools : Pair Decimal) : List Order → Except Fault (Pair Decimal)
  | [] => .ok pools
  | o :: orders => do swapEach (← swap pools o) orders

/-- What booking adds on one side and takes from the other. -/
theorem book_eq_ok {output : Decimal} :
    book pools side offer output = .ok left ↔
      (left.get side).raw = (pools.get side).raw + offer.raw ∧
        (left.get side.other).raw + output.raw = (pools.get side.other).raw := by
  simp only [book, bind_eq_ok, pure_eq_ok, Decimal.add_eq_ok, Decimal.sub_eq_ok]
  constructor
  · rintro ⟨paid, hpaid, rest, hrest, rfl⟩
    cases side <;> exact ⟨hpaid, hrest⟩
  · rintro ⟨hpaid, hrest⟩
    refine ⟨_, hpaid, _, hrest, ?_⟩
    cases side <;> rfl

/-! ### The product of the balances -/

/-- Both balances are positive. -/
def Positive (pools : Pair Decimal) : Prop := ∀ side, 0 < (pools.get side).raw

/-- The exact product of both balances, in units of the thirty-sixth place. -/
def product (pools : Pair Decimal) : ℕ := pools.base.raw * pools.quote.raw

/-- The product does not depend on which side is named first. -/
theorem product_eq (pools : Pair Decimal) (side : Side) :
    product pools = (pools.get side).raw * (pools.get side.other).raw := by
  cases side
  · rfl
  · exact Nat.mul_comm _ _

theorem positive_of_sides (side : Side) (hside : 0 < (pools.get side).raw)
    (hother : 0 < (pools.get side.other).raw) : Positive pools := by
  intro s
  cases side <;> cases s <;> assumption

/-- What a priced swap pays out is at most the part of the asked balance that the offer has of the
offer balance after it. That balance is within range. -/
theorem output_mul_le_of_quoteSwap (h : quoteSwap pools side offer rate = .ok q) :
    (pools.get side).raw + offer.raw ≤ Decimal.maxRaw ∧
      q.output.raw * ((pools.get side).raw + offer.raw) ≤
        (pools.get side.other).raw * offer.raw := by
  simp only [quoteSwap, bind_eq_ok, pure_eq_ok] at h
  obtain ⟨product, hproduct, sum, hsum, gross, hgross, _, -, _, -, fee, -, output, houtput,
    rfl⟩ := h
  rw [Decimal.sub_eq_ok] at houtput
  rw [Decimal.add_eq_ok] at hsum
  refine ⟨hsum ▸ sum.raw_le, ?_⟩
  calc output.raw * ((pools.get side).raw + offer.raw)
      ≤ gross.raw * sum.raw := by
        rw [hsum]
        exact Nat.mul_le_mul_right _ (Nat.le.intro houtput)
    _ ≤ product.raw * Decimal.scale := Decimal.div_raw_le hgross
    _ ≤ (pools.get side.other).raw * offer.raw := Decimal.mul_raw_le hproduct

/-- A priced swap leaves something of the asked balance. -/
theorem output_lt_of_quoteSwap (hpos : Positive pools)
    (h : quoteSwap pools side offer rate = .ok q) :
    q.output.raw < (pools.get side.other).raw := by
  have hoffer : offer.raw < (pools.get side).raw + offer.raw := Nat.lt_add_of_pos_left (hpos side)
  refine Nat.lt_of_mul_lt_mul_right (a := (pools.get side).raw + offer.raw) ?_
  calc q.output.raw * ((pools.get side).raw + offer.raw)
      ≤ (pools.get side.other).raw * offer.raw := (output_mul_le_of_quoteSwap h).2
    _ < (pools.get side.other).raw * ((pools.get side).raw + offer.raw) :=
        Nat.mul_lt_mul_of_pos_left hoffer (hpos side.other)

/-- A swap that is priced is booked: neither balance leaves the range. -/
theorem exists_book (hpos : Positive pools) (h : quoteSwap pools side offer rate = .ok q) :
    ∃ left, book pools side offer q.output = .ok left := by
  obtain ⟨paid, hpaid⟩ : ∃ paid, (pools.get side + offer : Except Fault Decimal) = .ok paid :=
    ⟨⟨_, (output_mul_le_of_quoteSwap h).1⟩, Decimal.add_eq_ok.mpr rfl⟩
  obtain ⟨rest, hrest⟩ :
      ∃ rest, (pools.get side.other - q.output : Except Fault Decimal) = .ok rest :=
    ⟨(pools.get side.other).monus q.output,
      Decimal.sub_eq_ok.mpr (Nat.sub_add_cancel (output_lt_of_quoteSwap hpos h).le)⟩
  exact ⟨_, by rw [book, hpaid, ok_bind, hrest, ok_bind]; rfl⟩

/-- Booking a priced swap keeps both balances positive and does not lower their product. -/
theorem product_le_book (hpos : Positive pools) (h : quoteSwap pools side offer rate = .ok q)
    (hleft : book pools side offer q.output = .ok left) :
    Positive left ∧ product pools ≤ product left := by
  obtain ⟨hpaid, hrest⟩ := book_eq_ok.mp hleft
  have hless := output_lt_of_quoteSwap hpos h
  have hpart := (output_mul_le_of_quoteSwap h).2
  constructor
  · exact positive_of_sides side (hpaid ▸ Nat.add_pos_left (hpos side) _) (by omega)
  · rw [← hrest] at hpart
    rw [product_eq pools side, product_eq left side, ← hrest, hpaid]
    linarith

/-- An output that is swapped straight back, at any fee rate, gives at most the offer. -/
theorem output_le_offer_of_swapBack (hpos : Positive pools)
    (h : quoteSwap pools side offer rate = .ok q)
    (hleft : book pools side offer q.output = .ok left) {backRate : Decimal} {back : SwapQuote}
    (hback : quoteSwap left side.other q.output backRate = .ok back) :
    back.output.raw ≤ offer.raw := by
  obtain ⟨hpaid, hrest⟩ := book_eq_ok.mp hleft
  have hreturn := (output_mul_le_of_quoteSwap hback).2
  rw [Side.other_other, hrest, hpaid] at hreturn
  refine Nat.le_of_mul_le_mul_right ?_ (hpos side.other)
  calc back.output.raw * (pools.get side.other).raw
      ≤ ((pools.get side).raw + offer.raw) * q.output.raw := hreturn
    _ = q.output.raw * ((pools.get side).raw + offer.raw) := Nat.mul_comm _ _
    _ ≤ (pools.get side.other).raw * offer.raw := (output_mul_le_of_quoteSwap h).2
    _ = offer.raw * (pools.get side.other).raw := Nat.mul_comm _ _

/-! ### Runs -/

/-- A run of swaps keeps both balances positive and does not lower their product: every swap of it
does, from the balances that the swap before has left. -/
theorem product_le_run {orders : List Order} (hpos : Positive pools)
    (h : swapEach pools orders = .ok left) : Positive left ∧ product pools ≤ product left := by
  induction orders generalizing pools with
  | nil =>
    obtain rfl : pools = left := by simpa [swapEach] using h
    exact ⟨hpos, le_rfl⟩
  | cons o orders ih =>
    simp only [swapEach, swap, bind_eq_ok] at h
    obtain ⟨next, ⟨q, hq, hnext⟩, hrun⟩ := h
    obtain ⟨hposNext, hstep⟩ := product_le_book hpos hq hnext
    obtain ⟨hposLeft, hrest⟩ := ih hposNext hrun
    exact ⟨hposLeft, hstep.trans hrest⟩

/-- Runs of swaps from two positive balances, of any length, in both directions and at any fee
rates. Wherever such a run has come, both balances are positive and their exact product is at least
the one at the start. Every further swap that is priced there is also booked, with the offer added
on its side and the output taken from the other, and again keeps the balances positive and does not
lower their product. Its output, swapped straight back, gives at most its offer. -/
theorem product_le_of_swapEach {orders : List Order} (hpos : Positive pools)
    (h : swapEach pools orders = .ok left) :
    Positive left ∧ product pools ≤ product left ∧
      ∀ (o : Order) (q : SwapQuote), quoteSwap left o.side o.offer o.rate = .ok q →
        ∃ next, swap left o = .ok next ∧
          (next.get o.side).raw = (left.get o.side).raw + o.offer.raw ∧
          (next.get o.side.other).raw + q.output.raw = (left.get o.side.other).raw ∧
          Positive next ∧ product left ≤ product next ∧
          ∀ (backRate : Decimal) (back : SwapQuote),
            quoteSwap next o.side.other q.output backRate = .ok back →
              back.output.raw ≤ o.offer.raw := by
  obtain ⟨hposLeft, hproduct⟩ := product_le_run hpos h
  refine ⟨hposLeft, hproduct, fun o q hq ↦ ?_⟩
  obtain ⟨next, hnext⟩ := exists_book hposLeft hq
  obtain ⟨hpaid, hrest⟩ := book_eq_ok.mp hnext
  obtain ⟨hposNext, hstep⟩ := product_le_book hposLeft hq hnext
  exact ⟨next, bind_eq_ok.mpr ⟨q, hq, hnext⟩, hpaid, hrest, hposNext, hstep,
    fun _ _ hback ↦ output_le_offer_of_swapBack hposLeft hq hnext hback⟩

/-- Seven hundred units of one asset and three of the smallest units of the other. -/
def thin : Pair Decimal := ⟨⟨700 * Decimal.scale, by decide⟩, ⟨3, by decide⟩⟩

/-- A swap into the thin side, one back at a fee of one percent, and one of a single smallest unit
without a fee. -/
def thinOrders : List Order :=
  [⟨.quote, .one, .zero⟩, ⟨.base, ⟨500 * Decimal.scale, by decide⟩, ⟨10 ^ 16, by decide⟩⟩,
    ⟨.quote, ⟨1, by decide⟩, .zero⟩]

/-- Three swaps in both directions with a side of three of its smallest units. -/
theorem product_le_of_swapEach_thin :
    Positive thin ∧ ∃ left, swapEach thin thinOrders = .ok left ∧
      Positive left ∧ product thin ≤ product left := by
  have hpos : Positive thin := positive_of_sides .base (by decide) (by decide)
  obtain ⟨left, hleft, -⟩ :=
    exists_of_any (swapEach thin thinOrders) (fun _ ↦ true) (by decide +kernel)
  obtain ⟨hposLeft, hproduct, -⟩ := product_le_of_swapEach hpos hleft
  exact ⟨hpos, left, hleft, hposLeft, hproduct⟩

end ConcentratedPool.ConstantProduct
