
namespace Arbor

/-- The operations a number of the plant geometry has to offer. One definition over a `Scalar` runs
on doubles and can be read over the reals. Laws are asked for by theorems. -/
class Scalar (α : Type) extends Zero α, One α, Add α, Sub α, Mul α, Div α, Neg α, LT α, LE α,
    BEq α, OfScientific α where
  decLt : DecidableLT α
  decLe : DecidableLE α
  ofInt : Int → α
  abs : α → α
  /-- The remainder of a division whose quotient is cut towards zero. -/
  rem : α → α → α
  pi : α
  sqrt : α → α
  sin : α → α
  cos : α → α
  acos : α → α
  atan : α → α
  atan2 : α → α → α

namespace Scalar

variable {α : Type} [Scalar α]

instance (a b : α) : Decidable (a < b) := Scalar.decLt a b

instance (a b : α) : Decidable (a ≤ b) := Scalar.decLe a b

def ofNat (n : Nat) : α := ofInt n

/-- The smaller of two numbers. What is not a number loses against a number. Of two equal arguments
the second is returned, which shows where they are zeros of different signs. -/
def lesser (a b : α) : α := if a == a then (if b ≤ a then b else a) else b

def greater (a b : α) : α := if a == a then (if a ≤ b then b else a) else b

def clamp (x lo hi : α) : α :=
  let y := if x < lo then lo else x
  if hi < y then hi else y

def tau : α := ofNat 2 * pi

/-- The least number of a list; what is not a number is passed over. Without any number the answer
is a quotient by zero, which lies above all numbers where there is such a quotient. -/
def least (xs : List α) : α :=
  match xs.filter fun x => x == x with
  | [] => 1 / 0
  | x :: xs => xs.foldl lesser x

def greatest (xs : List α) : α := xs.foldl greater 0

def radians (degrees : α) : α := degrees * (pi / ofNat 180)

def degrees (radians : α) : α := radians * (ofNat 180 / pi)

end Scalar

end Arbor
