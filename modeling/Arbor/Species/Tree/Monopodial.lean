import Arbor.Grammar.Derivation

namespace Arbor

inductive Monopodial (α : Type) where
  | leader (length width : α)
  | right (length width : α)
  | left (length width : α)
deriving DecidableEq, Repr

namespace Monopodial

open Word

variable {α : Type} [Scalar α]

def defaults : Store α := Store.ofTable
  [("initialHeight", 1.0, 0.0, 2.0),
    ("initialWidth", 0.2, 0.1, 0.4),
    ("initialOrientation", 67.0, 0.0, 360.0),
    ("contractionRatio1", 0.9, 0.55, 0.9),
    ("contractionRatio2", 0.7, 0.3, 0.8),
    ("branchingAngle1", 45.0, 10.0, 110.0),
    ("branchingAngle2", 60.0, 10.0, 120.0),
    ("divergenceAngle", 137.5, 0.0, 180.0),
    ("widthDecreaseRate", 0.707, 0.7, 0.8)]
  [("iterationNumber", 6, 4, 8)]

def start (params : Store α) : Except (Fault α) (Word Monopodial α) := do
  let orientation ← params.double "initialOrientation"
  let height ← params.double "initialHeight"
  let width ← params.double "initialWidth"
  return op (.roll orientation) ++ grow (.leader height width)

def successor (params : Store α) (p : Monopodial α) : Except (Fault α) (Word Monopodial α) := do
  let main ← params.double "contractionRatio1"
  let lateral ← params.double "contractionRatio2"
  let decrease ← params.double "widthDecreaseRate"
  let angle₁ ← params.double "branchingAngle1"
  let angle₂ ← params.double "branchingAngle2"
  let divergence ← params.double "divergenceAngle"
  return match p with
    | leader length width =>
      op (.width width none) ++ op (.advance length) ++
        branch (op (.pitch angle₁) ++ grow (.right (length * lateral) (width * decrease))) ++
        op (.roll divergence) ++ grow (.leader (length * main) (width * decrease))
    | right length width =>
      op (.width width none) ++ op (.advance length) ++
        branch (op (.turnRight angle₂) ++ op .rest ++
          grow (.left (length * lateral) (width * decrease))) ++
        grow (.left (length * main) (width * decrease))
    | left length width =>
      op (.width width none) ++ op (.advance length) ++
        branch (op (.turnLeft angle₂) ++ op .rest ++
          grow (.right (length * lateral) (width * decrease))) ++
        grow (.right (length * main) (width * decrease))

instance : Dialect Monopodial where
  successor params p := successor params p
  regrow _ i := .ok i
  toCall
    | leader length width => .ofNumbers "A" [length, width]
    | right length width => .ofNumbers "B" [length, width]
    | left length width => .ofNumbers "C" [length, width]
  ofCall?
    | ⟨"A", [length, width]⟩ => some (leader length.toScalar width.toScalar)
    | ⟨"B", [length, width]⟩ => some (right length.toScalar width.toScalar)
    | ⟨"C", [length, width]⟩ => some (left length.toScalar width.toScalar)
    | _ => none

def grammar : Grammar := ⟨Monopodial, inferInstance, start⟩

end Monopodial

end Arbor
