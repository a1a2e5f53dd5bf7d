import Arbor.Json.Value

namespace Arbor.Json

/-- What is found in the places of a record's known fields; unknown fields are passed over and a
known field may occur once. A list gives the fields in order and may stop early. -/
def fields? (names : List String) : Json → Option (List (Option Json))
  | .record fields =>
    names.mapM fun name =>
      match fields.filter (·.1 == name) with
      | [] => some none
      | [(_, v)] => some (some v)
      | _ => none
  | .list elements =>
    if elements.length ≤ names.length then
      some (elements.map some ++ List.replicate (names.length - elements.length) none)
    else none
  | _ => none

def text? : Json → Option String
  | .text s => some s
  | _ => none

def bool? : Json → Option Bool
  | .bool b => some b
  | _ => none

def double? : Json → Option Float
  | .integer n => some (Float.ofInt n)
  | .double x => some x
  | _ => none

def int64? : Json → Option Int64
  | .integer n =>
    if Int64.minValue.toInt ≤ n ∧ n ≤ Int64.maxValue.toInt then some (Int64.ofInt n) else none
  | _ => none

def nat64? : Json → Option UInt64
  | .integer n => if 0 ≤ n ∧ n.toNat < UInt64.size then some n.toNat.toUInt64 else none
  | _ => none

def list? : Json → Option (List Json)
  | .list elements => some elements
  | _ => none

def optional? {β : Type} (read : Json → Option β) : Option Json → Option (Option β)
  | none | some .null => some none
  | some v => (read v).map some

def orDefault? {β : Type} (default : β) (read : Json → Option β) : Option Json → Option β
  | none => some default
  | some v => read v

end Arbor.Json
