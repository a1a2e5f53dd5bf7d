import Arbor.Solid.Shape

namespace Arbor

structure Volume (α : Type) where
  name : String
  material : String
  shape : Shape α
  children : List (Volume α) := []

namespace Volume

variable {α : Type}

def joinLevels {β : Type} : List (List β) → List (List β) → List (List β)
  | [], ls => ls
  | ks, [] => ks
  | k :: ks, l :: ls => (k ++ l) :: joinLevels ks ls

mutual

def levels : Volume α → List (List (Volume α))
  | ⟨name, material, shape, children⟩ => [⟨name, material, shape, children⟩] :: levelsOf children

def levelsOf : List (Volume α) → List (List (Volume α))
  | [] => []
  | v :: vs => joinLevels v.levels (levelsOf vs)

end

def walk (v : Volume α) : List (Volume α) := v.levels.flatten

variable {m : Type → Type} [Monad m] {η : Type}

mutual

/-- Places a volume and what it holds; the handle of a volume follows those of its children. -/
def emit (place : Volume α → Option η → m η) (parent : Option η) : Volume α → m (List η)
  | ⟨name, material, shape, children⟩ => do
    let handle ← place ⟨name, material, shape, children⟩ parent
    let below ← emitAll place handle children
    return below ++ [handle]

def emitAll (place : Volume α → Option η → m η) (parent : η) : List (Volume α) → m (List η)
  | [] => return []
  | v :: vs => do
    let here ← v.emit place (some parent)
    let rest ← emitAll place parent vs
    return here ++ rest

end

end Volume

structure MaterialTotal (α : Type) where
  material : String
  volumes : Nat
  area : α

structure MaterialSummary (α : Type) where
  totals : List (MaterialTotal α) := []
  facets : Nat := 0

namespace MaterialSummary

variable {α : Type} [Scalar α]

def tally (material : String) (area : α) : List (MaterialTotal α) → List (MaterialTotal α)
  | [] => [⟨material, 1, 0 + area⟩]
  | t :: ts =>
    if t.material = material then { t with volumes := t.volumes + 1, area := t.area + area } :: ts
    else if material < t.material then ⟨material, 1, 0 + area⟩ :: t :: ts
    else t :: tally material area ts

def volumes (s : MaterialSummary α) : Nat := s.totals.foldl (fun n t => n + t.volumes) 0

def facetCount : Shape α → Nat
  | .tessellated s => s.facets.length
  | _ => 0

/-- Counts a volume; its handle is the number of volumes before it. -/
def place (v : Volume α) (_parent : Option Nat) : StateM (MaterialSummary α) Nat := do
  modify fun s =>
    { totals := tally v.material v.shape.area s.totals
      facets := s.facets + facetCount v.shape }
  return (← get).volumes - 1

end MaterialSummary

end Arbor
