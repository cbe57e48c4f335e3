import ConcentratedPool.Decimal.Render
import ConcentratedPool.Record.FieldFault
import ConcentratedPool.Text.Quoted

/-!
# What can go wrong

`Fault` lists the reasons for which an operation is refused, grouped by what was asked for.
`Fault.message` is the wording of each, and `Fault.isRejection` singles out the refusals of the pool
itself, which a trader who probes a pool takes for an answer, from misuse by the caller.
-/

set_option autoImplicit false
set_option relaxedAutoImplicit false

namespace ConcentratedPool

/-- Fixed-point arithmetic that has no result. -/
inductive ArithmeticFault where
  | underflow
  | overflow
  | signedOverflow
  | divisionByZero
  | negativeRoot
  | negativeMagnitude
  | negativePower
  | excessPrecision (precision : Int)
  | malformedNumeral (text : String)
  | excessPlaces (text : String)
deriving DecidableEq, Repr

/-- The iterations that stop after a fixed number of steps. -/
inductive Solver where
  | invariant
  | balance
  | halfPower
  | stableInvariant
  | stableBalance
deriving DecidableEq, Repr

/-- Amounts that have to be positive. -/
inductive ZeroAmount where
  | poolBalance
  | invariant
  | supply
  | swap
  | deposit
  | mintedShare
  | withdrawal
deriving DecidableEq, Repr

/-- Outputs that the pool cannot cover. -/
inductive Shortage where
  | emptySide
  | noOutput
  | noOutputAfterFees
  | uncoveredSwap
  | sharesWithoutBalance
  | burnExceedsSupply (amount supply : Decimal)
  | emptiedPool
deriving DecidableEq

/-- Promotions of the curve parameters that are not allowed. -/
inductive PromotionFault where
  | inProgress
  | tooEarly (interval : Int)
  | windowTooShort (interval : Int)
  | amplificationJump (change limit : Decimal)
  | gammaJump (change limit : Decimal)
  | notInProgress
deriving DecidableEq

/-- Values that are no decimals. -/
inductive NonDecimal where
  | flag
  | null
  | float
  | list
  | record
deriving DecidableEq, Repr

/-- The reasons for which an operation is refused. -/
inductive Fault where
  | arithmetic (cause : ArithmeticFault)
  | parameter (name value allowed : String)
  | notConverging (solver : Solver)
  | zeroAmount (amount : ZeroAmount)
  | foreignAsset (denom : String)
  | offerIndex (index : Int)
  | shortage (cause : Shortage)
  | spread (loss limit : Decimal) (expected : Option Decimal)
  | minimumLiquidity (minted locked : Int)
  | promotion (cause : PromotionFault)
  | imbalancedWithdrawal
  | missingToken
  /-- A number of balances other than two. -/
  | balanceCount (count : Nat)
  /-- A row of digits some of which have no decimal value. -/
  | unreadableDigits (digits : String)
  /-- A row of more digits than are read as one number. -/
  | excessDigits (limit count : Nat)
  /-- A numeral that denotes no float. -/
  | unreadableFloat
  /-- A value that is not converted to a decimal. -/
  | nonDecimal (value : NonDecimal)
  /-- A raw value that is no whole number. -/
  | nonIntegerRaw
  /-- Operands between which an operation is not defined. -/
  | operands
  /-- An operand that lacks an operation. -/
  | operation
  /-- A value that is no text where one is due. -/
  | notText
  /-- A quotient or a whole number beyond the range of floats. -/
  | floatRange
  /-- A float that is no number where a whole number is due. -/
  | notANumber
  | nonPositivePrice
  /-- A negative number of steps, or a negative seed. -/
  | negativeCount
  /-- A position behind the end of a price path or of the balances. -/
  | missingEntry
  | unknownScenario (name : String)
  /-- Fields of a record that do not fit. -/
  | fields (faults : List FieldFault)
deriving DecidableEq

/-- The wording of a fixed-point fault. -/
def ArithmeticFault.message : ArithmeticFault → String
  | underflow => "Decimal256 underflow"
  | overflow => "Decimal256 overflow"
  | signedOverflow => "SignedDecimal256 overflow"
  | divisionByZero => "Division by zero"
  | negativeRoot => "Square root of negative value"
  | negativeMagnitude => "Negative value cannot be converted to Decimal256"
  | negativePower => "Only non-negative integer powers are supported"
  | excessPrecision precision => s!"Precision {precision} exceeds {Decimal.places} decimals"
  | malformedNumeral text => "Invalid decimal string: " ++ Text.quote text
  | excessPlaces text => "Too many fractional digits: " ++ Text.quote text

/-- The name of a solver in messages. -/
def Solver.name : Solver → String
  | invariant => "newton_d"
  | balance => "newton_y"
  | halfPower => "half_float_pow"
  | stableInvariant => "stable_d"
  | stableBalance => "stable_y"

/-- The wording of a zero amount. -/
def ZeroAmount.message : ZeroAmount → String
  | poolBalance => "Pool balances must be positive"
  | invariant => "Invariant must be positive"
  | supply => "Total LP supply must be positive"
  | swap => "Swap amount must be positive"
  | deposit => "Both deposit amounts must be positive"
  | mintedShare => "Deposit is too small to mint any shares"
  | withdrawal => "Withdraw amount must be positive"

/-- The wording of a shortage. -/
def Shortage.message : Shortage → String
  | emptySide => "One of the pool sides is empty"
  | noOutput => "Swap output is zero"
  | noOutputAfterFees => "Swap output is zero after fees"
  | uncoveredSwap => "Not enough liquidity to cover the swap"
  | sharesWithoutBalance => "Pool has shares outstanding but an empty side"
  | burnExceedsSupply amount supply =>
    s!"Withdraw amount {amount.render} exceeds total share {supply.render}"
  | emptiedPool => "Withdrawal would empty the pool"

/-- The wording of a promotion fault. -/
def PromotionFault.message : PromotionFault → String
  | inProgress => "Amp/gamma promotion is already in progress"
  | tooEarly interval => s!"Amp/gamma was changed less than {interval} seconds ago"
  | windowTooShort interval => s!"Promotion window must be at least {interval} seconds"
  | amplificationJump change limit => s!"Amp change {change.render} exceeds {limit.render}"
  | gammaJump change limit => s!"Gamma change {change.render} exceeds {limit.render}"
  | notInProgress => "No amp/gamma promotion in progress"

/-- The wording of a value that is no decimal. -/
def NonDecimal.message : NonDecimal → String
  | flag => "Booleans are not decimals"
  | null => "Cannot convert NoneType to Decimal256"
  | float => "Cannot convert float to Decimal256"
  | list => "Cannot convert list to Decimal256"
  | record => "Cannot convert dict to Decimal256"

namespace Fault

/-- The wording of a fault. -/
def message : Fault → String
  | arithmetic cause => cause.message
  | parameter name value allowed => s!"Invalid {name}: {value} (allowed {allowed})"
  | notConverging solver => s!"{solver.name} is not converging"
  | zeroAmount amount => amount.message
  | foreignAsset denom => s!"Asset {denom} does not belong to this pool"
  | offerIndex index => s!"Offer index {index} is out of range"
  | shortage cause => cause.message
  | .spread loss limit none => s!"Spread {loss.render} exceeds {limit.render}"
  | .spread loss limit (some expected) =>
    s!"Spread {loss.render} exceeds {limit.render} of expected return {expected.render}"
  | minimumLiquidity minted locked =>
    s!"Initial liquidity {minted} must exceed locked {locked}"
  | promotion cause => cause.message
  | imbalancedWithdrawal => "Imbalanced withdraw is currently disabled"
  | missingToken => "Liquidity token address is empty"
  | balanceCount count => s!"Expected two balances, got {count}"
  | unreadableDigits digits =>
    "invalid literal for int() with base 10: " ++
      String.ofList ((Text.quote digits).toList.take 200)
  | excessDigits limit count =>
    s!"Exceeds the limit ({limit} digits) for integer string conversion: value has {count} " ++
      "digits; use sys.set_int_max_str_digits() to increase the limit"
  | unreadableFloat => "The numeral denotes no number"
  | nonDecimal value => value.message
  | nonIntegerRaw => "A raw value is a whole number"
  | operands => "The operation is not defined between these operands"
  | operation => "The operand lacks this operation"
  | notText => "A text is due here"
  | floatRange => "The number is too large for a float"
  | notANumber => "A float that is no number has no whole part"
  | nonPositivePrice => "Initial price must be positive"
  | negativeCount => "A count must not be negative"
  | missingEntry => "The list ends before this position"
  | unknownScenario name => s!"Unknown scenario: {name}"
  | fields faults => s!"{faults.length} fields do not fit"

/-- Whether the pool itself refuses, rather than that it is misused. -/
def isRejection : Fault → Bool
  | arithmetic _ | parameter .. | notConverging _ | zeroAmount _ | foreignAsset _ | offerIndex _
  | shortage _ | spread .. | minimumLiquidity .. | promotion _ | imbalancedWithdrawal
  | missingToken => true
  | _ => false

end Fault

end ConcentratedPool
