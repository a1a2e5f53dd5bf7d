import Arbor.Decimal.Binary

namespace Arbor

structure Decimal where
  digits : Nat
  exponent : Int
deriving DecidableEq, Repr

/-- The integer nearest to `num / den`; a tie goes to the even one. -/
def roundHalfEven (num den : Nat) : Nat :=
  let q := num / den
  match compare (2 * (num % den)) den with
  | .lt => q
  | .gt => q + 1
  | .eq => q + q % 2

def digitCount (n : Nat) : Nat := if n < 10 then 1 else digitCount (n / 10) + 1

def leadingExponent (num den : Nat) : Int :=
  if den ≤ num then (digitCount (num / den) : Int) - 1
  else -(digitCount ((den - 1) / num) : Int)

namespace Decimal

/-- Moves trailing zeros of the digits into the exponent; `fuel` bounds how many. -/
def strip : Nat → Decimal → Decimal
  | 0, d => d
  | fuel + 1, d =>
    if d.digits % 10 = 0 ∧ d.digits ≠ 0 then strip fuel ⟨d.digits / 10, d.exponent + 1⟩ else d

def normal (d : Decimal) : Decimal :=
  if d.digits = 0 then ⟨0, 0⟩ else d.strip (digitCount d.digits)

def nearest (num den : Nat) (exponent : Int) : Decimal :=
  ⟨roundHalfEven (num * Nat.pow 10 (-exponent).toNat) (den * Nat.pow 10 exponent.toNat), exponent⟩

def significant (n : Nat) (num den : Nat) : Decimal :=
  nearest num den (leadingExponent num den + 1 - n)

def leading (d : Decimal) : Int := d.exponent + digitCount d.digits - 1

end Decimal

end Arbor
