import Arbor.Decimal.Shortest

namespace Arbor

structure NumberStyle where
  /-- Whether a number whose leading digit has this exponent is written positionally. -/
  positional : Int → Bool
  /-- Whether a whole number ends in `.0`. -/
  pointZero : Bool
  tie : Tie
  nan : String
  infinity : String
  negativeInfinity : String

namespace Decimal

def zeros (n : Nat) : String := String.ofList (List.replicate n '0')

def positional (d : Decimal) (pointZero : Bool) : String :=
  if 0 ≤ d.exponent then
    toString d.digits ++ zeros d.exponent.toNat ++ (if pointZero then ".0" else "")
  else
    let places := (-d.exponent).toNat
    let text := (toString d.digits).toList
    let padded := List.replicate (places + 1 - text.length) '0' ++ text
    let split := padded.length - places
    String.ofList (padded.take split) ++ "." ++ String.ofList (padded.drop split)

def mantissa (d : Decimal) : String :=
  let text := (toString d.digits).toList
  match text with
  | first :: second :: rest => String.ofList (first :: '.' :: second :: rest)
  | _ => String.ofList text

def exponentText (width : Nat) (e : Int) : String :=
  let digits := toString e.natAbs
  "e" ++ (if e < 0 then "-" else "+") ++ zeros (width - digits.length) ++ digits

/-- One digit, the remaining digits behind a point, and a signed exponent. -/
def scientific (d : Decimal) : String := d.mantissa ++ exponentText 1 d.leading

def write (style : NumberStyle) (d : Decimal) : String :=
  if d.digits = 0 ∨ style.positional d.leading then d.positional style.pointZero
  else d.scientific

end Decimal

namespace NumberStyle

def signed (style : NumberStyle) (x : Float) (magnitude : Float → Decimal) : String :=
  if x.isNaN then style.nan
  else if x.isInf then (if signBit x then style.negativeInfinity else style.infinity)
  else
    let d := if x == 0 then ⟨0, 0⟩ else magnitude x
    (if signBit x then "-" else "") ++ d.write style

/-- Writes the fewest digits that read back. -/
def shortest (style : NumberStyle) (x : Float) : String :=
  style.signed x (Decimal.shortest style.tie)

def plain : NumberStyle where
  positional _ := true
  pointZero := false
  tie := .up
  nan := "NaN"
  infinity := "inf"
  negativeInfinity := "-inf"

/-- Documents: a double never looks like an integer, and what is not a number is `null`. -/
def document : NumberStyle where
  positional e := -5 ≤ e && e < 16
  pointZero := true
  tie := .toEven
  nan := "null"
  infinity := "null"
  negativeInfinity := "null"

end NumberStyle

def fixed (places : Nat) (x : Float) : String :=
  if x.isNaN || x.isInf then NumberStyle.plain.shortest x
  else
    let m := Dyadic.ofFloat x
    let d := Decimal.nearest m.num m.den (-(places : Int))
    (if signBit x then "-" else "") ++ d.positional false

def trimEnd (c : Char) (text : List Char) : List Char := (text.reverse.dropWhile (· == c)).reverse

/-- Drops the zeros at the end of a fraction, and the point if no fraction is left. -/
def trimFraction (text : String) : String :=
  if text.toList.contains '.' then String.ofList (trimEnd '.' (trimEnd '0' text.toList)) else text

/-- The number rounded to six significant digits: positional unless very small or very large. -/
def compact (x : Float) : String :=
  if x.isNaN then "nan"
  else if x.isInf then (if signBit x then "-inf" else "inf")
  else if x == 0 then (if signBit x then "-0" else "0")
  else
    let m := Dyadic.ofFloat x
    -- the exponent is that of the rounded number, which may have one digit more before its point
    let d := Decimal.significant 6 m.num m.den
    if d.leading < -4 ∨ 6 ≤ d.leading then
      trimFraction ((if signBit x then "-" else "") ++ d.mantissa) ++
        Decimal.exponentText 2 d.leading
    else trimFraction (fixed (5 - d.leading).toNat x)

end Arbor
