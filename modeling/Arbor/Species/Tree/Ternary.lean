import Arbor.Grammar.Derivation

namespace Arbor

inductive Ternary (α : Type) where
  | apex
deriving DecidableEq, Repr

namespace Ternary

open Word

variable {α : Type} [Scalar α]

def defaults : Store α := Store.ofTable
  [("initialHeight", 0.07, 0.04, 0.1),
    ("initialWidth", 0.02, 0.01, 0.04),
    ("initialOrientation", 67.0, 0.0, 360.0),
    ("elongationRate", 1.2, 1.0, 1.4),
    ("widthIncreaseRate", 1.9, 1.2, 1.9),
    ("branchingAngle", 18.95, 5.0, 30.0),
    ("divergenceAngle1", 94.74, 70.0, 140.0),
    ("divergenceAngle2", 132.63, 70.0, 140.0),
    ("lengthScale", 0.2, 0.1, 0.3)]
  [("iterationNumber", 7, 4, 7)]

def start (params : Store α) : Except (Fault α) (Word Ternary α) := do
  let width ← params.double "initialWidth"
  let height ← params.double "initialHeight"
  let orientation ← params.double "initialOrientation"
  return op (.width width none) ++ op (.advance height) ++ op (.roll orientation) ++ grow .apex

def successor (params : Store α) (_ : Ternary α) : Except (Fault α) (Word Ternary α) := do
  let width ← params.double "initialWidth"
  let scale ← params.double "lengthScale"
  let angle ← params.double "branchingAngle"
  let roll₁ ← params.double "divergenceAngle1"
  let roll₂ ← params.double "divergenceAngle2"
  let shoot := op (.pitch angle) ++ op (.advance scale) ++ grow .apex
  return op (.width width none) ++ op (.advance scale) ++ branch shoot ++ op (.roll roll₁) ++
    branch shoot ++ op (.roll roll₂) ++ branch shoot

def regrow (params : Store α) : Instruction α → Except (Fault α) (Instruction α)
  | .advance elongation => do return .advance ((← params.double "elongationRate") * elongation)
  | .width width none => do return .width ((← params.double "widthIncreaseRate") * width) none
  | i => .ok i

instance : Dialect Ternary where
  successor params p := successor params p
  regrow := regrow
  toCall _ := ⟨"A", []⟩
  ofCall?
    | ⟨"A", []⟩ => some apex
    | _ => none

def grammar : Grammar := ⟨Ternary, inferInstance, start⟩

end Ternary

end Arbor
