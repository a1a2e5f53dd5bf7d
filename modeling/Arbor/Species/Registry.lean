import Arbor.Species.Plant

namespace Arbor

structure Registry (σ : Type) where
  entries : List (String × Plant σ Float) := []

namespace Registry

variable {σ : Type} [Species σ]

def names (r : Registry σ) : List String := r.entries.map (·.1)

def contains (r : Registry σ) (name : String) : Bool := r.names.contains name

def insertEntry (name : String) (p : Plant σ Float) :
    List (String × Plant σ Float) → List (String × Plant σ Float)
  | [] => [(name, p)]
  | e :: es => if name < e.1 then (name, p) :: e :: es else e :: insertEntry name p es

def register (r : Registry σ) (name : String) (p : Plant σ Float) :
    Except (Fault Float) (Registry σ) :=
  if r.contains name then .error (.duplicateSpecies (Species.kind σ) name)
  else .ok ⟨insertEntry name p r.entries⟩

def create (r : Registry σ) (name : String) : Except (Fault Float) (Plant σ Float) :=
  match r.entries.lookup name with
  | some p => .ok p
  | none => .error (.unknownSpecies (Species.kind σ) name)

def createConfigured (r : Registry σ) (name : String) (c : Config Float) :
    Except (Fault Float) (Plant σ Float) := do
  let p ← r.create name
  match (c.applyTo name).on p.parameters with
  | (.ok _, parameters) => return { p with parameters }
  | (.error fault, _) => throw fault

def builtIn : Registry σ :=
  ⟨(Species.all : List σ).foldl
    (fun es s => insertEntry (Species.name s) (Plant.ofSpecies s) es) []⟩

end Registry

end Arbor
