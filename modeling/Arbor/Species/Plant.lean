import Arbor.Parameter.Config
import Arbor.Parameter.Table
import Arbor.Grammar.Interpretation
import Arbor.Species.Kind

namespace Arbor

structure Plant (σ α : Type) where
  species : σ
  parameters : Store α

structure Expansion where
  program : List (Instruction Float)
  rules : String
  generations : Nat

namespace Plant

variable {σ α : Type} [Species σ]

def ofSpecies [Scalar α] (s : σ) : Plant σ α := ⟨s, Species.defaults s⟩

def configured [Scalar α] (s : σ) (c : Config α) : Except (Fault α) (Plant σ α) :=
  match (c.applyTo (Species.name s)).on (Species.defaults s) with
  | (.ok _, parameters) => .ok ⟨s, parameters⟩
  | (.error fault, _) => .error fault

def grammar (p : Plant σ α) : Grammar := Species.grammar p.species

def start [Scalar α] (p : Plant σ α) : Except (Fault α) (Word p.grammar.Production α) :=
  p.grammar.start p.parameters

/-- The word that the plant has grown to, with the number of generations. -/
def grown [Scalar α] (p : Plant σ α) : Except (Fault α) (Nat × Word p.grammar.Production α) := do
  derive p.parameters (← p.start)

def program [Scalar α] (p : Plant σ α) : Except (Fault α) (List (Instruction α)) :=
  p.grown.map fun (_, word) => word.program

def initialRules (p : Plant σ Float) : Except (Fault Float) String := p.start.map Word.text

def expand (p : Plant σ Float) : Except (Fault Float) Expansion :=
  p.grown.map fun (generations, word) =>
    { program := word.program, rules := word.text, generations }

def printout (p : Plant σ Float) : Except (Fault Float) String := do
  let rules ← p.initialRules
  return (← p.parameters.table) ++ "Produced " ++ Species.title p.species ++ " Rules = " ++ rules ++
    "\n"

def same [DecidableEq σ] [Scalar α] (p q : Plant σ α) : Bool :=
  p.species == q.species && p.parameters.same q.parameters

def document (p : Plant σ Float) : String :=
  (Json.record [("species", Species.toJson p.species), ("parameters", p.parameters.toJson)]).pretty

def ofJson? (v : Json) : Option (Plant σ Float) := do
  match ← v.fields? ["species", "parameters"] with
  | [some species, some parameters] =>
    some ⟨← Species.ofJson? species, ← Store.ofJson? parameters⟩
  | _ => none

def ofDocument (text : String) : Except (Fault Float) (Plant σ Float) := do
  match (Json.parse? text).bind ofJson? with
  | none => throw .malformedDocument
  | some p =>
    p.parameters.validate
    return p

end Plant

def Plant.grow {α : Type} [Scalar α] (tree : Plant TreeSpecies α) :
    Except (Fault α) (Interpretation α) := do
  interpret (← tree.program) Pose.start

end Arbor
