import Arbor.Fault
import Arbor.Random.Generator

namespace Arbor

structure Parameter (ν : Type) where
  name : String
  value : ν
  minimum : ν
  maximum : ν
deriving DecidableEq, Repr

class Ranged (ν : Type) where
  lesser : ν → ν → ν
  greater : ν → ν → ν
  clamp : ν → ν → ν → ν

instance {α : Type} [Scalar α] : Ranged α where
  lesser := Scalar.lesser
  greater := Scalar.greater
  clamp := Scalar.clamp

instance : Ranged Int64 where
  lesser a b := if b < a then b else a
  greater a b := if a < b then b else a
  clamp x lo hi := if x < lo then lo else if hi < x then hi else x

namespace Parameter

variable {ν : Type}

def fixed (name : String) (v : ν) : Parameter ν := ⟨name, v, v, v⟩

/-- A new value, for which the range is widened if need be. -/
def assign [Ranged ν] (v : ν) (p : Parameter ν) : Parameter ν :=
  { p with
    value := v
    minimum := Ranged.lesser p.minimum v
    maximum := Ranged.greater p.maximum v }

/-- A new range, into which the value is moved. -/
def confine [Ranged ν] (minimum maximum : ν) (p : Parameter ν) : Parameter ν :=
  { p with value := Ranged.clamp p.value minimum maximum, minimum, maximum }

end Parameter

abbrev Rows (ν : Type) := List (Parameter ν)

namespace Rows

variable {ν : Type}

def find? (rows : Rows ν) (name : String) : Option (Parameter ν) :=
  List.find? (fun p => p.name == name) rows

def upsert (name : String) (change : Parameter ν → Parameter ν) (new : Parameter ν) :
    Rows ν → Rows ν
  | [] => [new]
  | p :: ps => if p.name = name then change p :: ps else p :: upsert name change new ps

def assign [Ranged ν] (name : String) (v : ν) (rows : Rows ν) : Rows ν :=
  rows.upsert name (Parameter.assign v) (Parameter.fixed name v)

def confine [Ranged ν] (name : String) (minimum maximum : ν) (rows : Rows ν) : Rows ν :=
  rows.upsert name (Parameter.confine minimum maximum) ⟨name, minimum, minimum, maximum⟩

end Rows

/-- The two kinds have namespaces of their own, and both keep the order in which names arrived,
which is also the order of random draws. -/
structure Store (α : Type) where
  doubles : Rows α
  integers : Rows Int64
deriving DecidableEq, Repr

/-- A change of a store that may fail; what it did before it failed stays done. -/
abbrev Edit (α : Type) := ExceptT (Fault α) (StateM (Store α))

namespace Store

variable {α : Type} [Scalar α]

def empty : Store α := ⟨[], []⟩

instance : Inhabited (Store α) := ⟨empty⟩

def ofTable (doubles : List (String × α × α × α)) (integers : List (String × Int × Int × Int)) :
    Store α where
  doubles := doubles.map fun (name, value, minimum, maximum) => ⟨name, value, minimum, maximum⟩
  integers := integers.map fun (name, value, minimum, maximum) =>
    ⟨name, .ofInt value, .ofInt minimum, .ofInt maximum⟩

def ofRows (doubles : Rows α) (integers : Rows Int64) : Except (Fault α) (Store α) :=
  if (doubles.all fun p => p.minimum ≤ p.maximum) && integers.all fun p => p.minimum ≤ p.maximum
  then .ok ⟨doubles, integers⟩
  else .error .emptyInterval

def findDouble (s : Store α) (name : String) : Except (Fault α) (Parameter α) :=
  match s.doubles.find? name with
  | some p => .ok p
  | none => .error (.missingParameter .double name)

def findInteger (s : Store α) (name : String) : Except (Fault α) (Parameter Int64) :=
  match s.integers.find? name with
  | some p => .ok p
  | none => .error (.missingParameter .integer name)

def double (s : Store α) (name : String) : Except (Fault α) α :=
  (s.findDouble name).map Parameter.value

def integer (s : Store α) (name : String) : Except (Fault α) Int64 :=
  (s.findInteger name).map Parameter.value

def containsDouble (s : Store α) (name : String) : Bool := (s.doubles.find? name).isSome

def containsInteger (s : Store α) (name : String) : Bool := (s.integers.find? name).isSome

def setDouble (name : String) (v : α) (s : Store α) : Store α :=
  { s with doubles := s.doubles.assign name v }

def setInteger (name : String) (v : Int64) (s : Store α) : Store α :=
  { s with integers := s.integers.assign name v }

/-- An integer as it is compared with other range bounds. -/
def ofInteger (n : Int64) : α := Scalar.ofInt n.toInt

def checkRange (name : String) (minimum maximum : α) : Except (Fault α) Unit :=
  if minimum ≤ maximum then .ok () else .error (.invertedRange name minimum maximum)

def setDoubleRange (name : String) (minimum maximum : α) : Edit α Unit := do
  checkRange name minimum maximum
  modify fun s => { s with doubles := s.doubles.confine name minimum maximum }

def setIntegerRange (name : String) (minimum maximum : Int64) : Edit α Unit := do
  checkRange (α := α) name (ofInteger minimum) (ofInteger maximum)
  -- a bound that a double cannot hold may have been rounded
  if maximum < minimum && (← get).containsInteger name then throw .emptyInterval
  modify fun s => { s with integers := s.integers.confine name minimum maximum }

def defineDouble (name : String) (v minimum maximum : α) : Edit α Unit := do
  modify (setDouble name v)
  setDoubleRange name minimum maximum

def defineInteger (name : String) (v minimum maximum : Int64) : Edit α Unit := do
  modify (setInteger name v)
  setIntegerRange name minimum maximum

def validate (s : Store α) : Except (Fault α) Unit := do
  s.doubles.forM fun p => checkRange p.name p.minimum p.maximum
  s.integers.forM fun p => checkRange (α := α) p.name (ofInteger p.minimum) (ofInteger p.maximum)

def drawDouble (p : Parameter α) (g : Generator) : Parameter α × Generator :=
  let (u, g) := g.uniform (α := α)
  ({ p with value := p.minimum + u * (p.maximum - p.minimum) }, g)

def drawInteger (p : Parameter Int64) (g : Generator) :
    Except (Fault α) (Parameter Int64 × Generator) :=
  match g.integer p.minimum p.maximum with
  | some (v, g) => .ok ({ p with value := v }, g)
  | none => .error .emptyInterval

def drawDoubles : Rows α → Generator → Rows α × Generator
  | [], g => ([], g)
  | p :: ps, g =>
    let (p, g) := drawDouble p g
    let (ps, g) := drawDoubles ps g
    (p :: ps, g)

def drawIntegers : Rows Int64 → Generator → Except (Fault α) (Rows Int64 × Generator)
  | [], g => .ok ([], g)
  | p :: ps, g => do
    let (p, g) ← drawInteger (α := α) p g
    let (ps, g) ← drawIntegers ps g
    return (p :: ps, g)

def randomizeParameter (seed : UInt64) (name : String) : Edit α Unit := do
  let s ← get
  let g := Generator.ofSeed seed
  match s.doubles.find? name, s.integers.find? name with
  | none, none => throw (.missingParameter .any name)
  | some d, none =>
    let (d, _) := drawDouble d g
    set { s with doubles := s.doubles.upsert name (fun _ => d) d }
  | none, some i =>
    let (i, _) ← drawInteger (α := α) i g
    set { s with integers := s.integers.upsert name (fun _ => i) i }
  | some d, some i =>
    let (d, g) := drawDouble d g
    let (i, _) ← drawInteger (α := α) i g
    set { s with
      doubles := s.doubles.upsert name (fun _ => d) d
      integers := s.integers.upsert name (fun _ => i) i }

/-- Draws all doubles and then all integers, in order, from the stream of a seed. -/
def randomize (seed : UInt64) : Edit α Unit := do
  let s ← get
  let (doubles, g) := drawDoubles s.doubles (Generator.ofSeed seed)
  let (integers, _) ← drawIntegers (α := α) s.integers g
  set (⟨doubles, integers⟩ : Store α)

/-- Whether two doubles differ by at most a few units of their last place. -/
def almostEqual (x y : α) : Bool :=
  let difference := Scalar.abs (x - y)
  difference < 2.220446049250313e-16 * Scalar.abs (x + y) * Scalar.ofNat 10 ||
    difference < 2.2250738585072014e-308

def similar (p q : Parameter α) : Bool :=
  p.name == q.name && almostEqual p.value q.value && almostEqual p.minimum q.minimum &&
    almostEqual p.maximum q.maximum

/-- Whether two stores hold the same parameters in the same order, doubles up to rounding. -/
def same (s t : Store α) : Bool :=
  s.doubles.length == t.doubles.length && (s.doubles.zip t.doubles).all (fun (p, q) => similar p q)
    && s.integers == t.integers

end Store

def Edit.on {α β : Type} (edit : Edit α β) (s : Store α) : Except (Fault α) β × Store α :=
  StateT.run (m := Id) (ExceptT.run edit) s

end Arbor
