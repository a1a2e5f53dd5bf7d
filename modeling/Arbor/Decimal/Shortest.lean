import Arbor.Decimal.Rounding

namespace Arbor

/-- What to do with two equally near candidates. -/
inductive Tie where
  | toEven
  | up
deriving DecidableEq, Repr

namespace Decimal

/-- Whether `d` lies in the interval of numbers that round to the double `x`. Its ends are halfway
to the neighbouring doubles, and they belong to it when the coefficient is even. -/
def readsBack (x : Float) (d : Decimal) : Bool :=
  let m := Dyadic.ofFloat x
  let below := if Dyadic.crowdedBelow x then 4 * m.coefficient - 1 else 4 * m.coefficient - 2
  let above := 4 * m.coefficient + 2
  let left := 4 * d.digits * Nat.pow 10 d.exponent.toNat * Nat.pow 2 (-m.exponent).toNat
  let right (n : Nat) := n * Nat.pow 2 m.exponent.toNat * Nat.pow 10 (-d.exponent).toNat
  if m.coefficient % 2 = 0 then right below ≤ left && left ≤ right above
  else right below < left && left < right above

/-- The nearer of the two neighbours of `x` on the grid `10 ^ exponent` that read back, if one
does. -/
def onGrid (tie : Tie) (x : Float) (exponent : Int) : Option Decimal :=
  let m := Dyadic.ofFloat x
  let num := m.num * Nat.pow 10 (-exponent).toNat
  let den := m.den * Nat.pow 10 exponent.toNat
  let q := num / den
  let down : Decimal := ⟨q, exponent⟩
  let up : Decimal := ⟨q + 1, exponent⟩
  match readsBack x down, readsBack x up with
  | false, false => none
  | true, false => some down
  | false, true => some up
  | true, true =>
    match compare (2 * (num % den)) den with
    | .lt => some down
    | .gt => some up
    | .eq => some (if tie = .up ∨ q % 2 = 1 then up else down)

def ofDyadic (m : Dyadic) : Decimal :=
  ⟨m.num * Nat.pow 5 (-m.exponent).toNat, min 0 m.exponent⟩

/-- The shortest decimal that reads back to the positive double `x`. Seventeen digits suffice; the
exact value stands behind the search. -/
def shortest (tie : Tie) (x : Float) : Decimal :=
  let m := Dyadic.ofFloat x
  let top := leadingExponent m.num m.den
  let grids := (List.range 17).map fun n : Nat => top - (n : Int)
  match grids.findSome? (onGrid tie x) with
  | some d => d.normal
  | none => (ofDyadic m).normal

end Decimal

end Arbor
