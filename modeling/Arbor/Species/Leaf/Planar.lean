import Arbor.Grammar.Derivation

namespace Arbor

inductive Planar (α : Type) : Type
deriving DecidableEq, Repr

def Instruction.scaleGrowth {α : Type} [Scalar α] : Instruction α → Instruction α
  | .grow elongation (some rate) => .grow (elongation * rate) (some rate)
  | i => i

namespace Planar

open Word

variable {α : Type} [Scalar α]

def defaults : Store α := Store.ofTable
  [("initialAngle", 0.0, 0.0, 360.0),
    ("initialEdgeLength", 1.0, 1.0, 1.0),
    ("mainGrowthRate", 1.0, 1.0, 1.0),
    ("offsetLength", 0.0, 0.0, 0.0),
    ("thickness", 0.01, 0.01, 0.01)]
  [("iterationNumber", 0, 0, 0)]

def half (edge rate : α) : Word Planar α :=
  let along (length : α) : Word Planar α := op (.grow length (some rate))
  polygon (op (.pitch 90.0) ++ along (edge / 2.0) ++ op (.roll 90.0) ++ op (.pitch 90.0) ++
    along (edge / 2.0) ++ op .vertex ++ op (.pitch 90.0) ++ along edge ++ op .vertex ++
    op (.pitch 90.0) ++ along edge ++ op .vertex)

def start (params : Store α) : Except (Fault α) (Word Planar α) := do
  let edge ← params.double "initialEdgeLength"
  let rate ← params.double "mainGrowthRate"
  let offset ← params.double "offsetLength"
  let angle ← params.double "initialAngle"
  return op (.grow offset (some 1)) ++ op (.roll angle) ++ branch (half edge rate) ++
    branch (op (.roll 180.0) ++ half edge rate)

instance : Dialect Planar where
  successor _ p := nomatch p
  regrow _ i := .ok i.scaleGrowth
  toCall p := nomatch p
  ofCall? _ := none

def grammar : Grammar := ⟨Planar, inferInstance, start⟩

end Planar

end Arbor
