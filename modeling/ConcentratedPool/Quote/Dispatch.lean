import ConcentratedPool.Quote.ConstantProduct
import ConcentratedPool.Quote.Stable

/-!
# Quotes for every kind of pool

`PoolKind.quoteSwap` prices a swap with a pool of the kind that a text names. What the kind needs
beside the balances is optional, and refused where it is missing.
-/

set_option autoImplicit false
set_option relaxedAutoImplicit false

namespace ConcentratedPool

/-- The kinds of pools. -/
inductive PoolKind where
  | constantProduct
  | stable
  | concentrated
deriving DecidableEq, Repr

namespace PoolKind

/-- The kinds in their order of presentation. -/
def all : List PoolKind := [constantProduct, stable, concentrated]

/-- The name of a kind. -/
def name : PoolKind → String
  | constantProduct => "xyk"
  | stable => "stable"
  | concentrated => "concentrated"

/-- The kind of a name. -/
def ofName (name : String) : Except Fault PoolKind :=
  match all.find? fun kind ↦ kind.name == name with
  | some kind => .ok kind
  | none => .error (.parameter "pair_type" name (", ".intercalate (all.map PoolKind.name)))

end PoolKind

/-- What a quote may need beside the balances. -/
structure QuoteTerms where
  feeRate : Option Decimal
  amp : Option Decimal
  pool : Option (PoolState × PoolParams)
  now : Int
  makerShare : Option Decimal

/-- A term of a quote that the kind of the pool requires. -/
def requireTerm {α : Type} (name kinds : String) (term : Option α) : Except Fault α :=
  match term with
  | some a => .ok a
  | none => .error (.parameter name "None" s!"required for {kinds} pools")

/-- Prices a swap of `offer` units of the asset on one side with a pool of any kind. -/
def quoteByKind (kind : String) (pools : Pair Decimal) (side : Side) (offer : Decimal)
    (terms : QuoteTerms) : Except Fault SwapQuote := do
  checkOffer pools offer
  match ← PoolKind.ofName kind with
  | .constantProduct =>
    let rate ← requireTerm "fee_rate" "xyk" terms.feeRate
    ConstantProduct.quoteSwap pools side offer rate
  | .stable =>
    let rate ← requireTerm "fee_rate/amp" "stable" terms.feeRate
    let amp ← requireTerm "fee_rate/amp" "stable" terms.amp
    Stable.quoteSwap pools side offer amp rate
  | .concentrated =>
    let (state, params) ← requireTerm "config" "concentrated" terms.pool
    quoteSwap state params pools offer side.other terms.now (terms.makerShare.getD .zero)

end ConcentratedPool
