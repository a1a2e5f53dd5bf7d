import Arbor.Decimal.Notation

namespace Arbor

/-- Integers and doubles are kept apart, and fields in their order. A scalar that is well formed but
denotes nothing (a number beyond all doubles, half of a surrogate pair) is `unreadable`; it may
stand only where nobody reads it. -/
inductive Json where
  | null
  | bool (b : Bool)
  | integer (n : Int)
  | double (x : Float)
  | text (s : String)
  | list (elements : List Json)
  | record (fields : List (String × Json))
  | unreadable
deriving Inhabited

namespace Json

/-- A numeral as it is spelled: sign, digits before and behind the point, exponent. -/
structure Numeral where
  negative : Bool
  whole : List Char
  places : List Char
  exponent : Int
  integral : Bool

def digitsValue (digits : List Char) : Nat :=
  digits.foldl (fun n c => 10 * n + (c.toNat - '0'.toNat)) 0

def exponent? : List Char → Option Int
  | [] => some 0
  | e :: rest =>
    let unsigned (digits : List Char) : Option Nat :=
      if digits ≠ [] && digits.all Char.isDigit then some (digitsValue digits) else none
    if e = 'e' ∨ e = 'E' then
      match rest with
      | '-' :: digits => (unsigned digits).map fun n => -(n : Int)
      | '+' :: digits => (unsigned digits).map Int.ofNat
      | digits => (unsigned digits).map Int.ofNat
    else none

/-- Splits a numeral. A leading zero stands alone, and a point has digits on both sides. -/
def Numeral.ofWord? (word : List Char) : Option Numeral := do
  let (negative, unsigned) := match word with
    | '-' :: rest => (true, rest)
    | rest => (false, rest)
  let whole := unsigned.takeWhile Char.isDigit
  let rest := unsigned.dropWhile Char.isDigit
  if whole = [] || (whole.head? == some '0' && 1 < whole.length) then none
  match rest with
  | '.' :: rest =>
    let places := rest.takeWhile Char.isDigit
    if places = [] then none
    let exponent ← exponent? (rest.dropWhile Char.isDigit)
    some { negative, whole, places, exponent, integral := false }
  | rest =>
    let exponent ← exponent? rest
    some { negative, whole, places := [], exponent, integral := rest.isEmpty }

/-- The double nearest to a numeral, unless it lies beyond all doubles. -/
def Numeral.double? (n : Numeral) : Option Float :=
  let digits := digitsValue (n.whole ++ n.places)
  let exponent := n.exponent - n.places.length
  let sign (x : Float) : Float := if n.negative then -x else x
  if digits = 0 ∨ exponent + digitCount digits < -400 then some (sign 0)
  else if 400 < exponent + digitCount digits then none
  else
    let x := Float.ofScientific digits (exponent < 0) exponent.natAbs
    if x.isInf then none else some (sign x)

/-- An integer numeral of 64 bits is an integer, signed if negative; any other one is a double. -/
def Numeral.value (n : Numeral) : Json :=
  let magnitude := digitsValue n.whole
  if n.integral && !n.negative && magnitude < UInt64.size then .integer magnitude
  else if n.integral && n.negative && 0 < magnitude && Int64.minValue.toInt ≤ -magnitude then
    .integer (-magnitude)
  else match n.double? with
    | some x => .double x
    | none => .unreadable

def ofWord? (word : List Char) : Option Json :=
  if word = "null".toList then some .null
  else if word = "true".toList then some (.bool true)
  else if word = "false".toList then some (.bool false)
  else (Numeral.ofWord? word).map Numeral.value

end Json

end Arbor
