import ConcentratedPool.Decimal.Parse

/-!
# Arithmetic between decimals of both kinds and whole numbers

A `Number` is a decimal of either kind, an `Operand` a number, a whole number or a flag. The kind of
a sum, a difference or a quotient is that of its left number; a product is signed as soon as one of
its factors is. Signed products and quotients are rounded toward zero, all others down. A whole
number stands for the decimal of that value, except that it divides an unsigned decimal, and
multiplies either kind, without being brought into range first. Nothing is divided into a whole
number, and flags take part only in the test for equality, which they fail.
-/

set_option autoImplicit false
set_option relaxedAutoImplicit false

namespace ConcentratedPool

/-- The two kinds of decimals. -/
inductive DecimalKind where
  | unsigned
  | signed
deriving DecidableEq, Repr

/-- A decimal of either kind. -/
inductive Number where
  | unsigned (value : Decimal)
  | signed (value : SignedDecimal)
deriving DecidableEq

/-- What stands on one side of an operator. -/
inductive Operand where
  | number (value : Number)
  | integer (value : Int)
  | flag (value : Bool)
deriving DecidableEq

namespace Number

def kind : Number → DecimalKind
  | unsigned _ => .unsigned
  | signed _ => .signed

def raw : Number → Int
  | unsigned value => value.raw
  | signed value => value.raw

def render : Number → String
  | unsigned value => value.render
  | signed value => value.render

/-! ### Constructors of a given kind -/

/-- The number of `raw` units, if it is in the range of its kind. -/
def ofRaw (kind : DecimalKind) (raw : Int) : Except Fault Number :=
  match kind with
  | .unsigned => unsigned <$> Decimal.ofRaw raw
  | .signed => signed <$> SignedDecimal.ofRaw raw

/-- A whole number as a decimal. -/
def ofInt (kind : DecimalKind) (value : Int) : Except Fault Number :=
  match kind with
  | .unsigned => unsigned <$> Decimal.ofInt value
  | .signed => signed <$> SignedDecimal.ofInt value

/-- The quotient of two whole numbers, rounded down. -/
def ofRatio (kind : DecimalKind) (numerator denominator : Int) : Except Fault Number :=
  match kind with
  | .unsigned => unsigned <$> Decimal.ofRatio numerator denominator
  | .signed => signed <$> SignedDecimal.ofRatio numerator denominator

/-- Reads a decimal. -/
def ofText (kind : DecimalKind) (text : String) : Except Fault Number :=
  match kind with
  | .unsigned => unsigned <$> Decimal.ofText text
  | .signed => signed <$> SignedDecimal.ofText text

/-- A token amount of an asset with `precision` places. -/
def ofTokens (kind : DecimalKind) (amount precision : Int) : Except Fault Number :=
  match kind with
  | .unsigned => unsigned <$> Decimal.ofTokens amount precision
  | .signed => signed <$> SignedDecimal.ofTokens amount precision

/-- Makes a decimal of one kind of an operand. -/
def ofOperand (kind : DecimalKind) : Operand → Except Fault Number
  | .number value => ofRaw kind value.raw
  | .integer value => ofInt kind value
  | .flag _ => .error (.nonDecimal .flag)

/-! ### Operations on one number -/

/-- The value with the other sign; unsigned decimals have none. -/
def neg : Number → Except Fault Number
  | unsigned _ => .error .operands
  | signed value => .ok (signed (-value))

/-- The magnitude of a signed decimal. -/
def abs : Number → Except Fault Number
  | unsigned _ => .error .operands
  | signed value => .ok (signed value.abs)

def sqrt : Number → Except Fault Number
  | unsigned value => unsigned <$> value.sqrt
  | signed value => signed <$> value.sqrt

def inv : Number → Except Fault Number
  | unsigned value => unsigned <$> value.inv
  | signed value => signed <$> value.inv

def floor : Number → Int
  | unsigned value => value.floor
  | signed value => value.floor

def toSigned : Number → SignedDecimal
  | unsigned value => value.toSigned
  | signed value => value

/-- Drops the sign; only signed decimals have one to drop. -/
def toUnsigned : Number → Except Fault Decimal
  | unsigned _ => .error .operation
  | signed value => value.toUnsigned

def isZero (a : Number) : Bool := a.raw == 0

/-- Whether the value is below zero; asked of signed decimals only. -/
def isNegative : Number → Except Fault Bool
  | unsigned _ => .error .operation
  | signed value => .ok value.isNegative

def toTokens (a : Number) (precision : Int) : Except Fault Int :=
  match a with
  | unsigned value => (fun n : Nat ↦ (n : Int)) <$> value.toTokens precision
  | signed value => value.toTokens precision

/-- The power with a whole exponent, which must not be negative. -/
def pow (a : Number) (exponent : Int) : Except Fault Number :=
  if exponent < 0 then .error (.arithmetic .negativePower)
  else match a with
    | unsigned value => unsigned <$> value.pow exponent.toNat
    | signed value => signed <$> value.pow exponent.toNat

/-- The text of a number together with its kind. -/
def describe : Number → String
  | unsigned value => s!"Decimal256('{value.render}')"
  | signed value => s!"SignedDecimal256('{value.render}')"

end Number

namespace Operand

/-- The raw value of an operand as a decimal, whatever its size; flags have none. -/
def raw? : Operand → Option Int
  | number value => some value.raw
  | integer value => some (value * Decimal.scale)
  | flag _ => none

/-- Combines raw values and gives the result the kind of the left number. -/
def combine (f : Int → Int → Int) (a b : Operand) : Except Fault Number :=
  match a, b with
  | number a, b =>
    match b.raw? with
    | some raw => Number.ofRaw a.kind (f a.raw raw)
    | none => .error .operands
  | integer a, number b => Number.ofRaw b.kind (f (a * Decimal.scale) b.raw)
  | _, _ => .error .operands

def add (a b : Operand) : Except Fault Number := combine (· + ·) a b

def sub (a b : Operand) : Except Fault Number := combine (· - ·) a b

def mul (a b : Operand) : Except Fault Number :=
  match a, b with
  | number (.unsigned a), number (.unsigned b) => Number.unsigned <$> (a * b)
  | number a, number b =>
    Number.ofRaw .signed (Int.tdiv (a.raw * b.raw) Decimal.scale)
  | number a, integer n | integer n, number a => Number.ofRaw a.kind (a.raw * n)
  | _, _ => .error .operands

/-- The quotient of two raw values, rounded as the kind of the left one says. -/
def divRaw (kind : DecimalKind) (a b : Int) : Except Fault Number :=
  if b = 0 then .error (.arithmetic .divisionByZero)
  else match kind with
    | .unsigned => Number.ofRaw .unsigned (Int.fdiv (a * Decimal.scale) b)
    | .signed => Number.ofRaw .signed (Int.tdiv (a * Decimal.scale) b)

def div (a b : Operand) : Except Fault Number :=
  match a, b with
  | number a, number b => divRaw a.kind a.raw b.raw
  | number (.unsigned a), integer n => divRaw .unsigned a.raw (n * Decimal.scale)
  | number (.signed a), integer n => do
    divRaw .signed a.raw (← SignedDecimal.ofInt n).raw
  | _, _ => .error .operands

/-- The distance between two numbers, of the kind of the left one. -/
def distance (a b : Operand) : Except Fault Number :=
  match a, b with
  | number a, number b => Number.ofRaw a.kind (a.raw - b.raw).natAbs
  | _, _ => .error .operation

/-- The difference of two numbers, or zero where it would be negative. -/
def monus (a b : Operand) : Except Fault Number :=
  match a, b with
  | number a, number b => Number.ofRaw a.kind (max (a.raw - b.raw) 0)
  | _, _ => .error .operation

/-- Whether two operands have the same value. -/
def same (a b : Operand) : Bool :=
  match a.raw?, b.raw? with
  | some a, some b => a == b
  | _, _ => false

/-- Compares the values of two operands. -/
def compare (test : Int → Int → Bool) (a b : Operand) : Except Fault Bool :=
  match a.raw?, b.raw? with
  | some a, some b => .ok (test a b)
  | _, _ => .error .operands

end Operand

end ConcentratedPool
