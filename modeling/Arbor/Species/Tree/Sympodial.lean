import Arbor.Grammar.Derivation

namespace Arbor

inductive Sympodial (α : Type) where
  | trunk (length width : α)
  | shoot (length width : α)
deriving DecidableEq, Repr

namespace Sympodial

open Word

variable {α : Type} [Scalar α]

def defaults : Store α := Store.ofTable
  [("initialHeight", 1.0, 0.001, 2.0),
    ("initialWidth", 0.2, 0.01, 0.4),
    ("initialOrientation", 67.0, 0.0, 360.0),
    ("contractionRatio1", 0.75, 0.1, 0.9),
    ("contractionRatio2", 0.68, 0.1, 0.8),
    ("branchingAngle1", 28.0, 5.0, 90.0),
    ("branchingAngle2", 48.0, 5.0, 90.0),
    ("widthDecreaseRate", 0.67, 0.1, 0.9)]
  [("iterationNumber", 6, 3, 8)]

def start (params : Store α) : Except (Fault α) (Word Sympodial α) := do
  let orientation ← params.double "initialOrientation"
  let height ← params.double "initialHeight"
  let width ← params.double "initialWidth"
  return op (.roll orientation) ++ grow (.trunk height width)

def successor (params : Store α) (p : Sympodial α) : Except (Fault α) (Word Sympodial α) := do
  let ratio₁ ← params.double "contractionRatio1"
  let ratio₂ ← params.double "contractionRatio2"
  let decrease ← params.double "widthDecreaseRate"
  let angle₁ ← params.double "branchingAngle1"
  let angle₂ ← params.double "branchingAngle2"
  let shoot₁ (length width : α) : Word Sympodial α :=
    grow (.shoot (length * ratio₁) (width * decrease))
  let shoot₂ (length width : α) : Word Sympodial α :=
    grow (.shoot (length * ratio₂) (width * decrease))
  return match p with
    | trunk length width =>
      op (.width width none) ++ op (.advance length) ++
        branch (op (.pitch angle₁) ++ shoot₁ length width) ++ op (.roll 180.0) ++
        branch (op (.pitch angle₂) ++ shoot₂ length width)
    | shoot length width =>
      op (.width width none) ++ op (.advance length) ++
        branch (op (.turnLeft angle₁) ++ op .rest ++ shoot₁ length width) ++
        branch (op (.turnRight angle₂) ++ op .rest ++ shoot₂ length width)

instance : Dialect Sympodial where
  successor params p := successor params p
  regrow _ i := .ok i
  toCall
    | trunk length width => .ofNumbers "A" [length, width]
    | shoot length width => .ofNumbers "B" [length, width]
  ofCall?
    | ⟨"A", [length, width]⟩ => some (trunk length.toScalar width.toScalar)
    | ⟨"B", [length, width]⟩ => some (shoot length.toScalar width.toScalar)
    | _ => none

def grammar : Grammar := ⟨Sympodial, inferInstance, start⟩

end Sympodial

end Arbor
