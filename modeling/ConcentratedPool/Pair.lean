import ConcentratedPool.Fault

/-!
# The two sides of a pool

A pool holds two assets, the base asset, in which prices are quoted, and the quote asset. `Side`
names one of them and `Pair` holds one thing for each.
-/

set_option autoImplicit false
set_option relaxedAutoImplicit false

namespace ConcentratedPool

/-- One of the two assets of a pool. -/
inductive Side where
  | base
  | quote
deriving DecidableEq, Repr

namespace Side

/-- The opposite side. -/
def other : Side → Side
  | base => quote
  | quote => base

@[simp] theorem other_other (s : Side) : s.other.other = s := by cases s <;> rfl

/-- The position of a side in a list of both. -/
def index : Side → Nat
  | base => 0
  | quote => 1

/-- The side at a position. -/
def ofIndex? : Int → Option Side
  | 0 => some base
  | 1 => some quote
  | _ => none

end Side

/-- One thing for each side of a pool. -/
@[ext] structure Pair (α : Type) where
  base : α
  quote : α
deriving DecidableEq, Repr

namespace Pair

variable {α β : Type}

/-- What a pair holds for a side. -/
def get (p : Pair α) : Side → α
  | .base => p.base
  | .quote => p.quote

/-- Replaces what a pair holds for a side. -/
def set (p : Pair α) (s : Side) (a : α) : Pair α :=
  match s with
  | .base => { p with base := a }
  | .quote => { p with quote := a }

@[simp] theorem get_set_self (p : Pair α) (s : Side) (a : α) : (p.set s a).get s = a := by
  cases s <;> rfl

@[simp] theorem get_set_other (p : Pair α) (s : Side) (a : α) :
    (p.set s a).get s.other = p.get s.other := by
  cases s <;> rfl

/-- Applies a function to both sides. -/
def map (f : α → β) (p : Pair α) : Pair β := ⟨f p.base, f p.quote⟩

/-- The sides in order. -/
def toList (p : Pair α) : List α := [p.base, p.quote]

/-- Whether a test holds of at least one side. -/
def any (test : α → Bool) (p : Pair α) : Bool := test p.base || test p.quote

/-- The pair of the two members of a list. -/
def ofList? : List α → Option (Pair α)
  | [a, b] => some ⟨a, b⟩
  | _ => none

@[simp] theorem ofList?_toList (p : Pair α) : ofList? p.toList = some p := rfl

/-- The pair of the two balances in a list. -/
def ofBalances (xs : List α) : Except Fault (Pair α) :=
  match ofList? xs with
  | some p => .ok p
  | none => .error (.balanceCount xs.length)

end Pair

end ConcentratedPool
