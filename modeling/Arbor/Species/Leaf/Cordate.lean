import Arbor.Grammar.Derivation

namespace Arbor

inductive Cordate (α : Type) where
  | left (direction : α)
  | right (direction : α)
  | midrib
deriving DecidableEq, Repr

namespace Cordate

open Word

variable {α : Type} [Scalar α]

def defaults : Store α := Store.ofTable
  [("initialAngle", 90.0, 70.0, 120.0),
    ("divergenceAngle", 15.0, 10.0, 20.0),
    ("curlAngle", 8.0, 3.0, 15.0),
    ("growthRate", 0.1, 0.05, 0.3),
    ("stemLength", 0.0, 0.0, 0.0),
    ("thickness", 0.01, 0.002, 0.06)]
  [("iterationNumber", 5, 3, 5)]

def start (params : Store α) : Except (Fault α) (Word Cordate α) := do
  let angle ← params.double "initialAngle"
  let stem ← params.double "stemLength"
  return op (.roll angle) ++ op (.grow stem none) ++ branch (grow (.left 1)) ++
    branch (grow (.right 1))

/-- A triangle is opened at the rim, inside the bracket of the next lobe, and closed behind it. -/
def successor (params : Store α) : Cordate α → Except (Fault α) (Word Cordate α)
  | left direction => do
    let curl ← params.double "curlAngle"
    let divergence ← params.double "divergenceAngle"
    return op .push ++ op (.roll (direction * curl)) ++ op (.pitch divergence) ++
      grow (.left direction) ++ op .openPolygon ++ op .vertex ++ op .pop ++ op .vertex ++
      grow .midrib ++ op .vertex ++ op .closePolygon
  | right direction => do
    let curl ← params.double "curlAngle"
    let divergence ← params.double "divergenceAngle"
    return op .push ++ op (.roll (-direction * curl)) ++ op (.pitch (-divergence)) ++
      grow (.right direction) ++ op .openPolygon ++ op .vertex ++ op .pop ++
      branch (grow .midrib ++ op .vertex) ++ op .vertex ++ grow .midrib ++ op .closePolygon
  | midrib => do
    let rate ← params.double "growthRate"
    return op (.grow rate none) ++ grow .midrib

instance : Dialect Cordate where
  successor params p := successor params p
  regrow _ i := .ok i
  toCall
    | left direction => .ofNumbers "A" [direction]
    | right direction => .ofNumbers "B" [direction]
    | midrib => ⟨"C", []⟩
  ofCall?
    | ⟨"A", [direction]⟩ => some (left direction.toScalar)
    | ⟨"B", [direction]⟩ => some (right direction.toScalar)
    | ⟨"C", []⟩ => some midrib
    | _ => none

def grammar : Grammar := ⟨Cordate, inferInstance, start⟩

end Cordate

end Arbor
