
namespace Arbor

/-- The magnitude `coefficient * 2 ^ exponent`, in which all digits are selected. -/
structure Dyadic where
  coefficient : Nat
  exponent : Int
deriving DecidableEq, Repr

namespace Dyadic

def biased (x : Float) : Nat := ((x.toBits >>> 52) &&& 0x7FF).toNat

def fraction (x : Float) : Nat := (x.toBits &&& 0xFFFFFFFFFFFFF).toNat

def ofFloat (x : Float) : Dyadic :=
  match biased x with
  | 0 => ⟨fraction x, -1074⟩
  | e + 1 => ⟨Nat.pow 2 52 + fraction x, (e : Int) - 1074⟩

/-- Whether the double below `x` is only half as far away as the double above it. -/
def crowdedBelow (x : Float) : Bool := fraction x == 0 && 1 < biased x

def num (d : Dyadic) : Nat := d.coefficient * Nat.pow 2 d.exponent.toNat

def den (d : Dyadic) : Nat := Nat.pow 2 (-d.exponent).toNat

def toFloat (d : Dyadic) : Float := (Float.ofNat d.coefficient).scaleB d.exponent

def mod (a b : Dyadic) : Dyadic :=
  let e := min a.exponent b.exponent
  let onGrid (d : Dyadic) : Nat := d.coefficient * Nat.pow 2 (d.exponent - e).toNat
  ⟨onGrid a % onGrid b, e⟩

end Dyadic

def signBit (x : Float) : Bool := x.toBits >>> 63 == 1

/-- The remainder of a division of doubles, with the sign of `x`; it is always exact. -/
def floatRem (x y : Float) : Float :=
  if x.isNaN || x.isInf || y.isNaN || y == 0 then 0 / 0
  else if y.isInf then x
  else
    let r := ((Dyadic.ofFloat x).mod (Dyadic.ofFloat y)).toFloat
    if signBit x then -r else r

end Arbor
