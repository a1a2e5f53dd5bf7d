import Arbor.Parameter.Document

namespace Arbor

inductive Setting (α : Type) where
  | integer (n : Int64)
  | double (x : α)
deriving BEq, Repr

def Setting.toScalar {α : Type} [Scalar α] : Setting α → α
  | integer n => Store.ofInteger n
  | double x => x

/-- One configured parameter; a bound that is left out is the value itself. -/
structure Entry (α : Type) where
  name : String
  value : Setting α
  minimum : Option (Setting α) := none
  maximum : Option (Setting α) := none
deriving BEq, Repr

namespace Entry

variable {α : Type} [Scalar α]

def integerBound (name : String) (value : Int64) : Option (Setting α) → Except (Fault α) Int64
  | none => .ok value
  | some (.integer n) => .ok n
  | some (.double _) => .error (.fractionalBound name)

def apply (e : Entry α) : Edit α Unit := do
  match e.value with
  | .integer n =>
    let minimum ← integerBound e.name n e.minimum
    let maximum ← integerBound e.name n e.maximum
    Store.defineInteger e.name n minimum maximum
  | .double x =>
    let bound (b : Option (Setting α)) : α := (b.map Setting.toScalar).getD x
    Store.defineDouble e.name x (bound e.minimum) (bound e.maximum)

end Entry

abbrev Source (α : Type) := String → Option (List (Entry α))

namespace Source

variable {α : Type} [Scalar α]

def applyAll : List (Entry α) → Edit α Unit
  | [] => pure ()
  | e :: es => do
    e.apply
    applyAll es

def applyTo (source : Source α) (species : String) : Edit α Nat :=
  match source species with
  | none => pure 0
  | some es => do
    applyAll es
    return es.length

end Source

/-- Entries by species; every species occurs once. -/
structure Config (α : Type) where
  species : List (String × List (Entry α)) := []
deriving BEq, Repr

namespace Config

variable {α : Type}

def entries? (c : Config α) (name : String) : Option (List (Entry α)) := c.species.lookup name

def put (name : String) (entries : List (Entry α)) :
    List (String × List (Entry α)) → List (String × List (Entry α))
  | [] => [(name, entries)]
  | (n, es) :: rest => if n = name then (n, entries) :: rest else (n, es) :: put name entries rest

def insert (c : Config α) (name : String) (e : Entry α) : Config α :=
  ⟨put name ((c.entries? name).getD [] ++ [e]) c.species⟩

def applyTo [Scalar α] (c : Config α) (name : String) : Edit α Nat :=
  Source.applyTo c.entries? name

end Config

def Setting.toJson : Setting Float → Json
  | integer n => .integer n.toInt
  | double x => .double x

/-- An integer of 64 signed bits is an integer setting, any other number a double. -/
def Setting.ofJson? (v : Json) : Option (Setting Float) :=
  match v.int64? with
  | some n => some (.integer n)
  | none => v.double?.map .double

namespace Entry

def toJson (e : Entry Float) : Json :=
  .record ([("name", .text e.name), ("value", e.value.toJson)] ++
    (e.minimum.map fun b => ("minimum", b.toJson)).toList ++
    (e.maximum.map fun b => ("maximum", b.toJson)).toList)

def ofJson? (v : Json) : Option (Entry Float) := do
  match ← v.fields? ["name", "value", "minimum", "maximum"] with
  | [some name, some value, minimum, maximum] =>
    some ⟨← name.text?, ← Setting.ofJson? value, ← Json.optional? Setting.ofJson? minimum,
      ← Json.optional? Setting.ofJson? maximum⟩
  | _ => none

end Entry

namespace Config

def toJson (c : Config Float) : Json :=
  .record (c.species.map fun (name, es) => (name, .list (es.map Entry.toJson)))

/-- Reads entries by species; of a repeated species the last entries count. -/
def ofJson? : Json → Option (Config Float)
  | .record fields => do
    let species ← fields.mapM fun (name, v) => do
      some (name, ← (← v.list?).mapM Entry.ofJson?)
    some ⟨species.foldl (fun all (name, es) => put name es all) []⟩
  | _ => none

def document (c : Config Float) : String := c.toJson.pretty

def ofDocument (text : String) : Except (Fault Float) (Config Float) :=
  match (Json.parse? text).bind ofJson? with
  | none => .error .malformedDocument
  | some c => .ok c

end Config

end Arbor
