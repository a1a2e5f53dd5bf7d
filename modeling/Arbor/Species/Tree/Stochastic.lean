import Arbor.Grammar.Count
import Arbor.Grammar.Derivation

namespace Arbor

/-- Every node sprouts up to three shoots, with a probability that falls from node to node; where
none sprouts deep in the tree, a twig grows instead. -/
inductive Stochastic (α : Type) where
  | apex (probability : α) (depth : Int64)
  | twig (remaining : Int64)
deriving DecidableEq, Repr

namespace Stochastic

open Word

variable {α : Type} [Scalar α]

def defaults : Store α := Store.ofTable
  [("initialHeight", 0.37, 0.3, 0.57),
    ("initialWidth", 0.05, 0.04, 0.07),
    ("initialOrientation", 314.0, 0.0, 360.0),
    ("elongationRate", 1.15, 1.1, 1.25),
    ("widthIncreaseRate", 1.6, 1.4, 1.8),
    ("branchingAngle", 21.0, 11.0, 31.0),
    ("branchingAngle2", 31.0, 11.0, 41.0),
    ("divergenceAngle1", 99.0, 70.0, 120.0),
    ("divergenceAngle2", 167.0, 147.0, 177.0),
    ("angleToVertical", 12.0, 10.0, 15.0),
    ("lengthScale", 0.18, 0.15, 0.24),
    ("lengthScale2", 0.098, 0.09, 0.12),
    ("branchProbReduction", 0.67, 0.57, 0.77),
    ("initialBranchProb", 0.9, 0.8, 0.95)]
  [("leafIterationNumber", 2, 2, 4),
    ("totalLeafIterations", 3, 2, 4),
    ("iterationNumber", 7, 5, 8),
    ("seed", 1234, 1234, 1234)]

def start (params : Store α) : Except (Fault α) (Word Stochastic α) := do
  let seed ← params.integer "seed"
  let width ← params.double "initialWidth"
  let rate ← params.double "widthIncreaseRate"
  let height ← params.double "initialHeight"
  let orientation ← params.double "initialOrientation"
  let probability ← params.double "initialBranchProb"
  return op (.reseed seed.toUInt64) ++ op (.width width (some rate)) ++ op (.advance height) ++
    op (.roll orientation) ++ grow (.apex probability 0)

def successor (params : Store α) (p : Stochastic α) : Drawing α (Word Stochastic α) := do
  let width := .width (← params.double "initialWidth") (some (← params.double "widthIncreaseRate"))
  let roll₁ ← params.double "divergenceAngle1"
  let roll₂ ← params.double "divergenceAngle2"
  match p with
  | apex probability depth =>
    let scale ← params.double "lengthScale"
    let angle ← params.double "branchingAngle"
    let reduction ← params.double "branchProbReduction"
    let leafDepth ← params.integer "leafIterationNumber"
    let generations ← params.integer "totalLeafIterations"
    let shoot (p : Stochastic α) : Word Stochastic α :=
      op (.pitch angle) ++ op (.advance scale) ++ grow p
    let sprout : Drawing α (Word Stochastic α) := do
      if (← Drawing.uniform) < probability then
        return branch (shoot (.apex (probability * reduction) (← Count.next (α := α) depth)))
      else if leafDepth < depth then return branch (shoot (.twig generations))
      else return branch []
    let first ← sprout
    let second ← sprout
    let third ← sprout
    return op width ++ op (.advance scale) ++ first ++ op (.roll roll₁) ++ second ++
      op (.roll roll₂) ++ third
  | twig remaining =>
    if remaining < 0 then return []
    let scale ← params.double "lengthScale2"
    let angle ← params.double "branchingAngle2"
    let towardsVertical ← params.double "angleToVertical"
    let shoot := op (.pitch angle) ++ op (.advance scale) ++ grow (.twig (remaining - 1))
    return op width ++ op (.verticate towardsVertical) ++ op (.advance scale) ++ branch shoot ++
      op (.roll roll₁) ++ branch shoot ++ op (.roll roll₂) ++ branch shoot

instance : Dialect Stochastic where
  successor params p := successor params p
  regrow params
    | .advance elongation => do return .advance ((← params.double "elongationRate") * elongation)
    | .width width (some rate) => .ok (.width (rate * width) (some rate))
    | i => .ok i
  toCall
    | apex probability depth => ⟨"A", [.number probability, .count depth.toInt]⟩
    | twig remaining => ⟨"B", [.count remaining.toInt]⟩
  ofCall?
    | ⟨"A", [probability, depth]⟩ => depth.count?.map fun n =>
      apex probability.toScalar (.ofInt n)
    | ⟨"B", [remaining]⟩ => remaining.count?.map fun n => twig (.ofInt n)
    | _ => none
  text
    | apex _ _ => "A"
    | twig remaining => "B(" ++ toString remaining.toInt ++ ")"

def grammar : Grammar := ⟨Stochastic, inferInstance, start⟩

end Stochastic

end Arbor
